import Koala.Intrusive.Chain
import Mathlib.Data.List.Nodup
import Mathlib.Tactic.Common

namespace intrusive

variable {H N : Type}

/-- The cells lead from `x` through the nodes `l` and end behind them. -/
def Path (next : H ⊕ N → Option N) : H ⊕ N → List N → Prop
  | x, [] => next x = none
  | x, n :: l => next x = some n ∧ Path next (.inr n) l

theorem Path.frame {next next' : H ⊕ N → Option N} {x : H ⊕ N} {l : List N} (h : Path next x l)
    (hstart : next' x = next x) (hsame : ∀ n ∈ l, next' (.inr n) = next (.inr n)) :
    Path next' x l := by
  induction l generalizing x with
  | nil => exact hstart.trans h
  | cons n l ih =>
    obtain ⟨hn, hl⟩ := h
    refine ⟨hstart.trans hn, ih hl (hsame n List.mem_cons_self) ?_⟩
    intro a ha
    exact hsame a (List.mem_cons_of_mem n ha)

theorem Path.last {next : H ⊕ N → Option N} {x : H ⊕ N} {l : List N} (h : Path next x l) :
    next (cellAfter x l) = none := by
  induction l generalizing x with
  | nil => exact h
  | cons n l ih => exact ih h.2

theorem Path.head {next : H ⊕ N → Option N} {x : H ⊕ N} {l : List N} (h : Path next x l) :
    next x = l.head? := by
  cases l with
  | nil => exact h
  | cons n l => exact h.1

/-- Only one list leads from a cell. -/
theorem Path.unique {next : H ⊕ N → Option N} {x : H ⊕ N} {l l' : List N} (h : Path next x l)
    (h' : Path next x l') : l = l' := by
  induction l generalizing x l' with
  | nil =>
    cases l' with
    | nil => rfl
    | cons n l' => exact absurd (h.symm.trans h'.1) (by simp)
  | cons n l ih =>
    cases l' with
    | nil => exact absurd (h'.symm.trans h.1) (by simp)
    | cons n' l' =>
      have hn : n = n' := Option.some.inj (h.1.symm.trans h'.1)
      subst hn
      rw [ih h.2 h'.2]

theorem cellAfter_append (x : H ⊕ N) (l : List N) (n : N) : cellAfter x (l ++ [n]) = .inr n := by
  induction l generalizing x with
  | nil => rfl
  | cons a l ih => exact ih (.inr a)

theorem cellAfter_eq (x : H ⊕ N) (l : List N) :
    cellAfter x l = (l.getLast?.map .inr).getD x := by
  obtain rfl | ⟨l, n, rfl⟩ := List.eq_nil_or_concat l
  · rfl
  · rw [List.concat_eq_append, cellAfter_append, List.getLast?_concat]
    rfl

variable [DecidableEq H] [DecidableEq N]

/-- A node is linked behind the last cell. -/
theorem Path.push {next : H ⊕ N → Option N} {x : H ⊕ N} {l : List N} {n : N} (h : Path next x l)
    (hx : ∀ a ∈ l, x ≠ .inr a) (hnodup : l.Nodup) (hxn : x ≠ .inr n) (hn : n ∉ l)
    (hnext : next (.inr n) = none) :
    Path (Function.update next (cellAfter x l) (some n)) x (l ++ [n]) := by
  induction l generalizing x with
  | nil =>
    refine ⟨Function.update_self .., ?_⟩
    exact (Function.update_of_ne (Ne.symm hxn) ..).trans hnext
  | cons a l ih =>
    obtain ⟨ha, hl⟩ := h
    obtain ⟨hal, hnodup⟩ := List.nodup_cons.mp hnodup
    have han : (Sum.inr a : H ⊕ N) ≠ .inr n := by
      intro heq
      exact hn (Sum.inr.inj heq ▸ List.mem_cons_self)
    have hback : ∀ b ∈ l, (Sum.inr a : H ⊕ N) ≠ .inr b := by
      intro b hb heq
      exact hal (Sum.inr.inj heq ▸ hb)
    have hcell : x ≠ cellAfter (.inr a) l := by
      obtain heq | ⟨b, hb, heq⟩ := cellAfter_cases (H := H) (.inr a) l
      · rw [heq]
        exact hx a List.mem_cons_self
      · rw [heq]
        exact hx b (List.mem_cons_of_mem a hb)
    refine ⟨?_, ih hl hback hnodup han fun hmem => hn (List.mem_cons_of_mem a hmem)⟩
    exact (Function.update_of_ne hcell ..).trans ha

/-- The first node is unlinked. -/
theorem Path.pop {next : H ⊕ N → Option N} {x : H ⊕ N} {l : List N} {n : N}
    (h : Path next x (n :: l)) (hx : ∀ a ∈ n :: l, x ≠ .inr a) (hnodup : (n :: l).Nodup) :
    Path (Function.update (Function.update next x (next (.inr n))) (.inr n) none) x l := by
  obtain ⟨hnl, _⟩ := List.nodup_cons.mp hnodup
  have hkeep : ∀ a ∈ l, Function.update (Function.update next x (next (.inr n))) (.inr n) none
      (.inr a) = next (.inr a) := by
    intro a ha
    have han : (Sum.inr a : H ⊕ N) ≠ .inr n := by
      intro heq
      exact hnl (Sum.inr.inj heq ▸ ha)
    rw [Function.update_of_ne han,
      Function.update_of_ne (Ne.symm (hx a (List.mem_cons_of_mem n ha)))]
  have hstart : Function.update (Function.update next x (next (.inr n))) (.inr n) none x =
      next (.inr n) := by
    rw [Function.update_of_ne (hx n List.mem_cons_self), Function.update_self]
  cases l with
  | nil => exact hstart.trans h.2
  | cons b l =>
    obtain ⟨hb, hl⟩ := h.2
    refine ⟨hstart.trans hb, hl.frame (hkeep b List.mem_cons_self) ?_⟩
    intro a ha
    exact hkeep a (List.mem_cons_of_mem b ha)

end intrusive

open intrusive

namespace koala.lldq

set_option linter.style.nameCheck false

/-- A deque: the address of its sentinel is `.inl`, that of a node `.inr`. -/
structure lldq_deque_t (ι N : Type) where
  count : Int
  head : ι ⊕ N
  tail : ι ⊕ N

/-- Deques that share the memory of their nodes. -/
structure Memory (ι N : Type) where
  next : ι ⊕ N → Option N
  deque : ι → lldq_deque_t ι N

variable {ι N : Type} [DecidableEq ι] [DecidableEq N]

/-- The sentinel comes from `calloc`. -/
def lldq_init (m : Memory ι N) (i : ι) : Memory ι N where
  next := Function.update m.next (.inl i) none
  deque := Function.update m.deque i ⟨0, .inl i, .inl i⟩

def lldq_pop_head (m : Memory ι N) (i : ι) : Option N × Memory ι N :=
  let deque := m.deque i
  let first := m.next deque.head
  let (next, deque) := match first with
    | none => (m.next, deque)
    | some node =>
      (Function.update (Function.update m.next deque.head (m.next (.inr node))) (.inr node) none,
        { deque with count := deque.count - 1 })
  let deque := if first.map .inr = some deque.tail then { deque with tail := deque.head } else deque
  (first, ⟨next, Function.update m.deque i deque⟩)

def lldq_push_tail (m : Memory ι N) (i : ι) (node : N) : Memory ι N :=
  let deque := m.deque i
  ⟨Function.update m.next deque.tail (some node),
    Function.update m.deque i { deque with tail := .inr node, count := deque.count + 1 }⟩

/-- The deques hold the lists `q`. A node outside them has no successor. -/
structure Rep (m : Memory ι N) (q : ι → List N) : Prop where
  head : ∀ i, (m.deque i).head = .inl i
  tail : ∀ i, (m.deque i).tail = cellAfter (.inl i) (q i)
  count : ∀ i, (m.deque i).count = (q i).length
  path : ∀ i, Path m.next (.inl i) (q i)
  nodup : ∀ i, (q i).Nodup
  disjoint : ∀ i j, i ≠ j → ∀ n ∈ q i, n ∉ q j
  outside : ∀ n, (∀ i, n ∉ q i) → m.next (.inr n) = none

variable {m : Memory ι N} {q : ι → List N}

omit [DecidableEq ι] [DecidableEq N] in
/-- The last cell of a deque is not one of another deque. -/
theorem Rep.cell_ne (h : Rep m q) {i j : ι} (hij : j ≠ i) :
    cellAfter (.inl i) (q i) ≠ .inl j ∧ ∀ n ∈ q j, cellAfter (.inl i) (q i) ≠ .inr n := by
  obtain heq | ⟨a, ha, heq⟩ := cellAfter_cases (.inl i) (q i)
  · rw [heq]
    exact ⟨fun hinl => hij (Sum.inl.inj hinl).symm, fun n _ => Sum.inl_ne_inr⟩
  · rw [heq]
    refine ⟨Sum.inr_ne_inl, fun n hn hinr => ?_⟩
    exact h.disjoint j i hij n hn (Sum.inr.inj hinr ▸ ha)

/-- A node in no deque is linked at the end of one. -/
theorem Rep.push (h : Rep m q) (i : ι) (node : N) (hnode : ∀ j, node ∉ q j) :
    Rep (lldq_push_tail m i node) (Function.update q i (q i ++ [node])) where
  head j := by
    obtain rfl | hj := eq_or_ne j i
    · simp [lldq_push_tail, h.head]
    · simp [lldq_push_tail, Function.update_of_ne hj, h.head]
  tail j := by
    obtain rfl | hj := eq_or_ne j i
    · simp [lldq_push_tail, cellAfter_append]
    · simp [lldq_push_tail, Function.update_of_ne hj, h.tail]
  count j := by
    obtain rfl | hj := eq_or_ne j i
    · simp [lldq_push_tail, h.count]
    · simp [lldq_push_tail, Function.update_of_ne hj, h.count]
  path j := by
    rw [lldq_push_tail]
    dsimp only
    rw [h.tail]
    obtain rfl | hj := eq_or_ne j i
    · rw [Function.update_self]
      exact (h.path j).push (fun _ _ => Sum.inl_ne_inr) (h.nodup j) Sum.inl_ne_inr (hnode j)
        (h.outside node hnode)
    · obtain ⟨hsentinel, hnodes⟩ := h.cell_ne hj
      rw [Function.update_of_ne hj]
      refine (h.path j).frame (Function.update_of_ne (Ne.symm hsentinel) ..) ?_
      intro n hn
      exact Function.update_of_ne (Ne.symm (hnodes n hn)) ..
  nodup j := by
    obtain rfl | hj := eq_or_ne j i
    · rw [Function.update_self]
      exact List.nodup_append.mpr ⟨h.nodup j, List.pairwise_singleton _ _, by
        intro a ha b hb heq
        exact hnode j (List.mem_singleton.mp hb ▸ heq ▸ ha)⟩
    · rw [Function.update_of_ne hj]
      exact h.nodup j
  disjoint j k hjk n hj hk := by
    obtain rfl | hji := eq_or_ne j i
    · rw [Function.update_self] at hj
      rw [Function.update_of_ne (Ne.symm hjk)] at hk
      obtain hold | hnew := List.mem_append.mp hj
      · exact h.disjoint j k hjk n hold hk
      · exact hnode k (List.mem_singleton.mp hnew ▸ hk)
    · rw [Function.update_of_ne hji] at hj
      obtain rfl | hki := eq_or_ne k i
      · rw [Function.update_self] at hk
        obtain hold | hnew := List.mem_append.mp hk
        · exact h.disjoint j k hjk n hj hold
        · exact hnode j (List.mem_singleton.mp hnew ▸ hj)
      · rw [Function.update_of_ne hki] at hk
        exact h.disjoint j k hjk n hj hk
  outside n hn := by
    have hold : ∀ j, n ∉ q j := by
      intro j hmem
      refine hn j ?_
      obtain rfl | hj := eq_or_ne j i
      · simp [hmem]
      · simpa [Function.update_of_ne hj] using hmem
    have hcell : (Sum.inr n : ι ⊕ N) ≠ cellAfter (.inl i) (q i) := by
      obtain heq | ⟨a, ha, heq⟩ := cellAfter_cases (.inl i) (q i)
      · rw [heq]
        exact Sum.inr_ne_inl
      · rw [heq]
        intro hinr
        exact hold i (Sum.inr.inj hinr ▸ ha)
    rw [lldq_push_tail]
    dsimp only
    rw [h.tail, Function.update_of_ne hcell]
    exact h.outside n hold

/-- Nothing is taken out of an empty deque. -/
theorem Rep.pop_none (h : Rep m q) {i : ι} (hq : q i = []) : lldq_pop_head m i = (none, m) := by
  have hfirst : m.next (.inl i) = none := by
    rw [(h.path i).head, hq, List.head?_nil]
  rw [lldq_pop_head]
  simp only [h.head, hfirst, Option.map_none, reduceCtorEq, if_false, Function.update_eq_self]

/-- The node that leaves is the first one, and it has no successor then. -/
theorem Rep.pop_some (h : Rep m q) {i : ι} {node : N} {l : List N} (hq : q i = node :: l) :
    ∃ m', lldq_pop_head m i = (some node, m') ∧ Rep m' (Function.update q i l) := by
  have hpath := h.path i
  have hnodup := h.nodup i
  rw [hq] at hpath hnodup
  obtain ⟨hnl, hlnodup⟩ := List.nodup_cons.mp hnodup
  have hfirst : m.next (.inl i) = some node := hpath.1
  have htail : (m.deque i).tail = cellAfter (.inr node) l := by
    rw [h.tail, hq]
    rfl
  -- the tail is the node that leaves when no other node is behind it
  have hlast : some (.inr node) = some (m.deque i).tail ↔ l = [] := by
    rw [htail, Option.some.injEq]
    constructor
    · intro heq
      cases l with
      | nil => rfl
      | cons a l =>
        obtain hcell | ⟨b, hb, hcell⟩ := cellAfter_cases (H := ι) (.inr a) l
        · rw [cellAfter, hcell] at heq
          exact absurd (Sum.inr.inj heq ▸ List.mem_cons_self) hnl
        · rw [cellAfter, hcell] at heq
          exact absurd (Sum.inr.inj heq ▸ List.mem_cons_of_mem a hb) hnl
    · rintro rfl
      rfl
  have hpop : lldq_pop_head m i = (some node,
      ⟨Function.update (Function.update m.next (.inl i) (m.next (.inr node))) (.inr node) none,
        Function.update m.deque i
          ⟨(m.deque i).count - 1, .inl i, cellAfter (.inl i) l⟩⟩) := by
    rw [lldq_pop_head]
    simp only [h.head, hfirst, Option.map_some]
    by_cases hempty : l = []
    · rw [if_pos (hlast.mpr hempty), hempty]
      rfl
    · rw [if_neg (mt hlast.mp hempty), htail]
      cases l with
      | nil => exact absurd rfl hempty
      | cons a l => rfl
  have hother : ∀ j, j ≠ i → ∀ n ∈ q j, n ≠ node := by
    intro j hj n hn heq
    exact h.disjoint j i hj n hn (by simp [hq, heq])
  refine ⟨_, hpop, ?_⟩
  refine ⟨fun j => ?_, fun j => ?_, fun j => ?_, fun j => ?_, fun j => ?_, ?_, fun n hn => ?_⟩
  · obtain rfl | hj := eq_or_ne j i
    · simp
    · simp [Function.update_of_ne hj, h.head]
  · obtain rfl | hj := eq_or_ne j i
    · simp
    · simp [Function.update_of_ne hj, h.tail]
  · obtain rfl | hj := eq_or_ne j i
    · simp [h.count, hq]
    · simp [Function.update_of_ne hj, h.count]
  · obtain rfl | hj := eq_or_ne j i
    · rw [Function.update_self]
      exact hpath.pop (fun _ _ => Sum.inl_ne_inr) hnodup
    · rw [Function.update_of_ne hj]
      refine (h.path j).frame ?_ ?_
      · dsimp only
        rw [Function.update_of_ne Sum.inl_ne_inr, Function.update_of_ne (mt Sum.inl.inj hj)]
      · intro n hn
        dsimp only
        rw [Function.update_of_ne (mt Sum.inr.inj (hother j hj n hn)),
          Function.update_of_ne Sum.inr_ne_inl]
  · obtain rfl | hj := eq_or_ne j i
    · rw [Function.update_self]
      exact hlnodup
    · rw [Function.update_of_ne hj]
      exact h.nodup j
  · have hsub : ∀ j, ∀ n ∈ Function.update q i l j, n ∈ q j := by
      intro j n hn
      obtain rfl | hj := eq_or_ne j i
      · rw [Function.update_self] at hn
        exact hq ▸ List.mem_cons_of_mem node hn
      · rwa [Function.update_of_ne hj] at hn
    intro j k hjk n hj hk
    exact h.disjoint j k hjk n (hsub j n hj) (hsub k n hk)
  · obtain rfl | hne := eq_or_ne n node
    · exact Function.update_self ..
    · dsimp only
      rw [Function.update_of_ne (mt Sum.inr.inj hne), Function.update_of_ne Sum.inr_ne_inl]
      refine h.outside n fun j hmem => hn j ?_
      obtain rfl | hj := eq_or_ne j i
      · rw [hq] at hmem
        simpa [hne] using hmem
      · simpa [Function.update_of_ne hj] using hmem

/-- What a removal returns is the head of the list, and the rest stays. -/
theorem Rep.pop (h : Rep m q) (i : ι) :
    ∃ m', lldq_pop_head m i = ((q i).head?, m') ∧ Rep m' (Function.update q i (q i).tail) := by
  cases hq : q i with
  | nil =>
    refine ⟨m, h.pop_none hq, ?_⟩
    rwa [List.tail_nil, ← hq, Function.update_eq_self]
  | cons node l => exact h.pop_some hq

theorem foldl_init_next (is : List ι) {m : Memory ι N} (hnext : m.next = fun _ => none) :
    (is.foldl lldq_init m).next = fun _ => none := by
  induction is generalizing m with
  | nil => exact hnext
  | cons i is ih =>
    refine ih ?_
    rw [lldq_init, hnext]
    exact Function.update_eq_self (Sum.inl i) fun _ : ι ⊕ N => (none : Option N)

theorem foldl_init_deque (is : List ι) {m : Memory ι N} {i : ι}
    (hi : i ∈ is ∨ m.deque i = ⟨0, .inl i, .inl i⟩) :
    (is.foldl lldq_init m).deque i = ⟨0, .inl i, .inl i⟩ := by
  induction is generalizing m with
  | nil => exact hi.resolve_left (List.not_mem_nil)
  | cons j is ih =>
    refine ih ?_
    obtain rfl | hij := eq_or_ne i j
    · exact Or.inr (Function.update_self ..)
    · refine hi.imp (fun hmem => (List.mem_cons.mp hmem).resolve_left hij) fun hdeque => ?_
      exact (Function.update_of_ne hij ..).trans hdeque

/-- The deques of `n` schedulers, whatever they held before, while every node is
as `calloc` returns it. -/
def init_scheduler (n : Nat) (deque : Fin n → lldq_deque_t (Fin n) N) : Memory (Fin n) N :=
  (List.finRange n).foldl lldq_init ⟨fun _ => none, deque⟩

theorem rep_init (n : Nat) (deque : Fin n → lldq_deque_t (Fin n) N) :
    Rep (init_scheduler n deque) fun _ => [] := by
  have hnext : (init_scheduler n deque).next = fun _ => none := foldl_init_next _ rfl
  have hdeque : ∀ i, (init_scheduler n deque).deque i = ⟨0, .inl i, .inl i⟩ :=
    fun i => foldl_init_deque _ (Or.inl (List.mem_finRange i))
  refine ⟨fun i => ?_, fun i => ?_, fun i => ?_, fun i => ?_, fun i => ?_, ?_, fun node _ => ?_⟩
  · rw [hdeque]
  · rw [hdeque]
    rfl
  · rw [hdeque]
    rfl
  · exact congrFun hnext (.inl i)
  · exact List.nodup_nil
  · simp
  · exact congrFun hnext (.inr node)

section runs

/-- The calls made on the deques. -/
inductive Op (ι N : Type) where
  | push (i : ι) (node : N)
  | pop (i : ι)

def Memory.step (m : Memory ι N) : Op ι N → Option N × Memory ι N
  | .push i node => (none, lldq_push_tail m i node)
  | .pop i => lldq_pop_head m i

/-- What the calls return, and the memory after them. -/
def Memory.run (m : Memory ι N) : List (Op ι N) → List (Option N) × Memory ι N
  | [] => ([], m)
  | op :: ops =>
    let (answer, m) := m.step op
    let (answers, m) := m.run ops
    (answer :: answers, m)

/-- A queue is a list: nodes enter behind the last one and the first one leaves. -/
def fifoStep (q : ι → List N) : Op ι N → Option N × (ι → List N)
  | .push i node => (none, Function.update q i (q i ++ [node]))
  | .pop i => ((q i).head?, Function.update q i (q i).tail)

def fifoRun (q : ι → List N) : List (Op ι N) → List (Option N) × (ι → List N)
  | [] => ([], q)
  | op :: ops =>
    let (answer, q) := fifoStep q op
    let (answers, q) := fifoRun q ops
    (answer :: answers, q)

/-- A node is only linked while it is in no deque. -/
def Op.Allowed (q : ι → List N) : Op ι N → Prop
  | .push _ node => ∀ j, node ∉ q j
  | .pop _ => True

def Allowed (q : ι → List N) : List (Op ι N) → Prop
  | [] => True
  | op :: ops => op.Allowed q ∧ Allowed (fifoStep q op).2 ops

/-- The nodes linked into a deque, in the order of the calls. -/
def pushed (i : ι) (ops : List (Op ι N)) : List N :=
  ops.filterMap fun op => match op with
    | .push j node => if j = i then some node else none
    | .pop _ => none

/-- The nodes that a deque returned, in the order of the calls. -/
def popped (i : ι) (ops : List (Op ι N)) (answers : List (Option N)) : List N :=
  (ops.zip answers).filterMap fun call => match call.1 with
    | .push _ _ => none
    | .pop j => if j = i then call.2 else none

omit [DecidableEq N] in
/-- The nodes leave in the order in which they entered. -/
theorem fifoRun_order (i : ι) (ops : List (Op ι N)) (q : ι → List N) :
    q i ++ pushed i ops = popped i ops (fifoRun q ops).1 ++ (fifoRun q ops).2 i := by
  induction ops generalizing q with
  | nil => exact List.append_nil _
  | cons op ops ih =>
    have hrest := ih (fifoStep q op).2
    cases op with
    | push j node =>
      obtain rfl | hj := eq_or_ne j i
      · simpa [pushed, popped, fifoRun, fifoStep] using hrest
      · simpa [pushed, popped, fifoRun, fifoStep, hj, Function.update_of_ne (Ne.symm hj)] using hrest
    | pop j =>
      obtain rfl | hj := eq_or_ne j i
      · cases hq : q j with
        | nil => simpa [pushed, popped, fifoRun, fifoStep, hq] using hrest
        | cons node l => simpa [pushed, popped, fifoRun, fifoStep, hq] using hrest
      · simpa [pushed, popped, fifoRun, fifoStep, hj, Function.update_of_ne (Ne.symm hj)] using hrest

theorem Rep.step (h : Rep m q) {op : Op ι N} (hallowed : op.Allowed q) :
    (m.step op).1 = (fifoStep q op).1 ∧ Rep (m.step op).2 (fifoStep q op).2 := by
  cases op with
  | push i node => exact ⟨rfl, h.push i node hallowed⟩
  | pop i =>
    obtain ⟨m', hpop, hrep⟩ := h.pop i
    rw [Memory.step, hpop]
    exact ⟨rfl, hrep⟩

theorem Rep.run (h : Rep m q) {ops : List (Op ι N)} (hallowed : Allowed q ops) :
    (m.run ops).1 = (fifoRun q ops).1 ∧ Rep (m.run ops).2 (fifoRun q ops).2 := by
  induction ops generalizing m q with
  | nil => exact ⟨rfl, h⟩
  | cons op ops ih =>
    obtain ⟨hop, hops⟩ := hallowed
    obtain ⟨hanswer, hrep⟩ := h.step hop
    obtain ⟨hanswers, hrep⟩ := ih hrep hops
    exact ⟨congrArg₂ List.cons hanswer hanswers, hrep⟩

/-- Any calls on deques that were set up return what queues return: the nodes
leave a deque in the order in which they were linked, `NULL` stands for the empty
one, and afterwards its count, its tail and its links are those of the nodes that
are left. A node that is in no deque has no successor. -/
theorem lldq_is_fifo {n : Nat} (deque : Fin n → lldq_deque_t (Fin n) N)
    (ops : List (Op (Fin n) N)) (hallowed : Allowed (fun _ => []) ops) :
    ∃ answers m q, (init_scheduler n deque).run ops = (answers, m) ∧
      fifoRun (fun _ => []) ops = (answers, q) ∧
      (∀ i, pushed i ops = popped i ops answers ++ q i ∧
        (m.deque i).count = (q i).length ∧ (m.deque i).head = .inl i ∧
        (m.deque i).tail = ((q i).getLast?.map .inr).getD (.inl i) ∧
        Path m.next (.inl i) (q i)) ∧
      ∀ node, (∀ i, node ∉ q i) → m.next (.inr node) = none := by
  obtain ⟨hanswers, hrep⟩ := (rep_init n deque).run hallowed
  refine ⟨_, _, _, rfl, Prod.ext hanswers.symm rfl, fun i => ?_, hrep.outside⟩
  refine ⟨?_, hrep.count i, hrep.head i, ?_, hrep.path i⟩
  · rw [hanswers, ← fifoRun_order, List.nil_append]
  · rw [hrep.tail, cellAfter_eq]

/-- Two nodes enter, one leaves and comes back, and the deque runs empty. -/
theorem lldq_is_fifo_reused :
    ∃ m, (init_scheduler 1 fun i => ⟨0, .inl i, .inl i⟩).run
        [.push 0 7, .push 0 8, .pop 0, .push 0 7, .pop 0, .pop 0, .pop 0] =
          ([none, none, some 7, none, some 8, some 7, none], m) ∧
      (m.deque 0).count = 0 ∧ (m.deque 0).tail = .inl 0 := by
  obtain ⟨answers, m, q, hrun, hfifo, hdeques, _⟩ := lldq_is_fifo (n := 1) (N := Nat)
    (fun i => ⟨0, .inl i, .inl i⟩)
    [.push 0 7, .push 0 8, .pop 0, .push 0 7, .pop 0, .pop 0, .pop 0] (by
      simp [Allowed, Op.Allowed, fifoStep, Fin.forall_fin_one])
  obtain ⟨hanswers, hq⟩ := Prod.mk.inj hfifo
  have hempty : q 0 = [] := by
    rw [← hq]
    rfl
  obtain ⟨_, hcount, _, htail, _⟩ := hdeques 0
  rw [← hanswers] at hrun
  refine ⟨m, hrun, ?_, ?_⟩
  · rw [hcount, hempty]
    rfl
  · rw [htail, hempty]
    rfl

end runs

end koala.lldq
