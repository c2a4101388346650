import Koala.Post
import Mathlib.Data.List.Basic
import Mathlib.Logic.Function.Basic

namespace koala.stack

set_option linter.style.nameCheck false

variable {α : Type}

/-- A stack in an array; `objs` are the cells from the address on. -/
structure Stack (α : Type) where
  top : Int
  size : Int
  objs : Int → Option α

def Init_Stack (size : Int) (objs : Int → Option α) : Stack α := ⟨-1, size, objs⟩

def Stack_Top (stk : Stack α) : Res (Option α) :=
  if stk.top ≥ -1 ∧ stk.top ≤ stk.size - 1 then
    .ok (if stk.top ≥ 0 then stk.objs stk.top else none)
  else
    .error .assertion

def Stack_Pop (stk : Stack α) : Res (Option α × Stack α) :=
  if stk.top ≥ -1 ∧ stk.top ≤ stk.size - 1 then
    .ok (if stk.top ≥ 0 then (stk.objs stk.top, { stk with top := stk.top - 1 }) else (none, stk))
  else
    .error .assertion

/-- The assertion is about the cell of the last object, not about the one that is
written. -/
def Stack_Push (stk : Stack α) (v : α) : Res (Stack α) :=
  if stk.top ≥ -1 ∧ stk.top ≤ stk.size - 1 then
    let top := stk.top + 1
    if 0 ≤ top ∧ top ≤ stk.size - 1 then
      .ok { stk with top, objs := Function.update stk.objs top (some v) }
    else
      .error .bounds
  else
    .error .assertion

/-- The array of `n` cells holds the objects `l`, the top first. -/
structure Stack.Holds (stk : Stack α) (n : Nat) (l : List α) : Prop where
  size : stk.size = n
  top : stk.top = l.length - 1
  length : l.length ≤ n
  cell : ∀ k < l.length, stk.objs k = l.reverse[k]?

namespace Stack.Holds

variable {stk : Stack α} {n : Nat} {l : List α} {v : α}

theorem init (n : Nat) (objs : Int → Option α) : (Init_Stack n objs).Holds n [] where
  size := rfl
  top := rfl
  length := Nat.zero_le n
  cell k hk := absurd hk (Nat.not_lt_zero k)

theorem asserted (h : stk.Holds n l) : stk.top ≥ -1 ∧ stk.top ≤ stk.size - 1 := by
  have hlength := h.length
  rw [h.top, h.size]
  omega

theorem objs_top (h : stk.Holds n (v :: l)) : stk.objs stk.top = some v := by
  have htop : stk.top = (l.length : Int) := by
    rw [h.top, List.length_cons]
    omega
  rw [htop, h.cell l.length (by simp), List.reverse_cons,
    List.getElem?_append_right (by simp)]
  simp

theorem tail (h : stk.Holds n (v :: l)) : { stk with top := stk.top - 1 }.Holds n l where
  size := h.size
  top := by
    have htop := h.top
    rw [List.length_cons] at htop
    dsimp only
    omega
  length := by
    have hlength := h.length
    rw [List.length_cons] at hlength
    omega
  cell k hk := by
    have hcell := h.cell k (by simp; omega)
    rwa [List.reverse_cons, List.getElem?_append_left (by simpa using hk)] at hcell

/-- The top is the object that was pushed last. -/
theorem top_ok (h : stk.Holds n l) : Stack_Top stk = .ok l.head? := by
  rw [Stack_Top, if_pos h.asserted]
  cases l with
  | nil =>
    have hneg : ¬ stk.top ≥ 0 := by
      rw [h.top]
      simp
    rw [if_neg hneg]
    rfl
  | cons v l =>
    have hpos : stk.top ≥ 0 := by
      rw [h.top, List.length_cons]
      omega
    rw [if_pos hpos, h.objs_top]
    rfl

theorem pop_ok (h : stk.Holds n l) :
    ∃ stk', Stack_Pop stk = .ok (l.head?, stk') ∧ stk'.Holds n l.tail := by
  rw [Stack_Pop, if_pos h.asserted]
  cases l with
  | nil =>
    have hneg : ¬ stk.top ≥ 0 := by
      rw [h.top]
      simp
    rw [if_neg hneg]
    exact ⟨stk, rfl, h⟩
  | cons v l =>
    have hpos : stk.top ≥ 0 := by
      rw [h.top, List.length_cons]
      omega
    rw [if_pos hpos, h.objs_top]
    exact ⟨_, rfl, h.tail⟩

/-- A push writes inside the array where that has a free cell. -/
theorem push_ok (h : stk.Holds n l) (hroom : l.length < n) (v : α) :
    ∃ stk', Stack_Push stk v = .ok stk' ∧ stk'.Holds n (v :: l) := by
  have htop : stk.top + 1 = (l.length : Int) := by
    rw [h.top]
    omega
  have hinside : 0 ≤ (l.length : Int) ∧ (l.length : Int) ≤ stk.size - 1 := by
    rw [h.size]
    omega
  rw [Stack_Push, if_pos h.asserted, htop]
  dsimp only
  rw [if_pos hinside]
  refine ⟨_, rfl, h.size, ?_, hroom, ?_⟩
  · simp
  · intro k hk
    rw [List.length_cons] at hk
    rw [List.reverse_cons]
    by_cases hlast : k = l.length
    · subst hlast
      rw [List.getElem?_append_right (by simp)]
      simp
    · have hlt : k < l.length := by omega
      rw [List.getElem?_append_left (by simpa using hlt), ← h.cell k hlt]
      refine Function.update_of_ne ?_ _ _
      omega

/-- Where it has none, it writes behind the last cell. -/
theorem push_full (h : stk.Holds n l) (hfull : ¬ l.length < n) (v : α) :
    Stack_Push stk v = .error .bounds := by
  have hlength := h.length
  have houtside : ¬ (0 ≤ stk.top + 1 ∧ stk.top + 1 ≤ stk.size - 1) := by
    rw [h.top, h.size]
    omega
  rw [Stack_Push, if_pos h.asserted]
  exact if_neg houtside

end Stack.Holds

/-- A use of a stack: an object that is pushed, or what is popped. -/
inductive StackOp (α : Type) where
  | push (ob : α)
  | pop (ob : Option α)

/-- The objects pushed and not yet popped, the last first. -/
def pending : List α → List (StackOp α) → List α
  | l, [] => l
  | l, .push ob :: ops => pending (ob :: l) ops
  | l, .pop _ :: ops => pending l.tail ops

/-- Every pop gives the object that was pushed last and not yet popped, or `NULL`
when there is none. -/
def LastIn : List α → List (StackOp α) → Prop
  | _, [] => True
  | l, .push ob :: ops => LastIn (ob :: l) ops
  | l, .pop ob :: ops => ob = l.head? ∧ LastIn l.tail ops

/-- No push finds `n` objects. -/
def InRoom (n : Nat) : List α → List (StackOp α) → Prop
  | _, [] => True
  | l, .push ob :: ops => l.length < n ∧ InRoom n (ob :: l) ops
  | l, .pop _ :: ops => InRoom n l.tail ops

/-- The stack in the array is used. -/
inductive Stack.Uses : Stack α → List (StackOp α) → Stack α → Prop where
  | nil (stk : Stack α) : Uses stk [] stk
  | push {stk stk₁ stk₂ : Stack α} {ob : α} {ops : List (StackOp α)}
      (hpush : Stack_Push stk ob = .ok stk₁) (hrest : Uses stk₁ ops stk₂) :
      Uses stk (.push ob :: ops) stk₂
  | pop {stk stk₁ stk₂ : Stack α} {ob : Option α} {ops : List (StackOp α)}
      (hpop : Stack_Pop stk = .ok (ob, stk₁)) (hrest : Uses stk₁ ops stk₂) :
      Uses stk (.pop ob :: ops) stk₂

section uses

variable {stk stk' : Stack α} {n : Nat} {l : List α} {ops ops' : List (StackOp α)}

theorem pending_append : pending l (ops ++ ops') = pending (pending l ops) ops' := by
  induction ops generalizing l with
  | nil => rfl
  | cons op ops ih =>
    cases op with
    | push ob => exact ih
    | pop ob => exact ih

theorem lastIn_append : LastIn l (ops ++ ops') ↔ LastIn l ops ∧ LastIn (pending l ops) ops' := by
  induction ops generalizing l with
  | nil => exact (true_and _).symm ▸ Iff.rfl
  | cons op ops ih =>
    cases op with
    | push ob => exact ih
    | pop ob => exact (and_congr_right fun _ => ih).trans and_assoc.symm

theorem inRoom_append :
    InRoom n l (ops ++ ops') ↔ InRoom n l ops ∧ InRoom n (pending l ops) ops' := by
  induction ops generalizing l with
  | nil => exact (true_and _).symm ▸ Iff.rfl
  | cons op ops ih =>
    cases op with
    | push ob => exact (and_congr_right fun _ => ih).trans and_assoc.symm
    | pop ob => exact ih

theorem Stack.Uses.append {stk₁ stk₂ : Stack α} (h : stk.Uses ops stk₁)
    (h' : stk₁.Uses ops' stk₂) : stk.Uses (ops ++ ops') stk₂ := by
  induction h with
  | nil stk => exact h'
  | push hpush _ ih => exact .push hpush (ih h')
  | pop hpop _ ih => exact .pop hpop (ih h')

/-- The array gives back what was pushed, last in first out. -/
theorem Stack.Holds.uses (h : stk.Holds n l) (huses : stk.Uses ops stk') :
    stk'.Holds n (pending l ops) ∧ LastIn l ops := by
  induction huses generalizing l with
  | nil stk => exact ⟨h, trivial⟩
  | @push stk stk₁ stk₂ ob ops hpush hrest ih =>
    by_cases hroom : l.length < n
    · obtain ⟨stk₃, hpush', hholds⟩ := h.push_ok hroom ob
      rw [hpush] at hpush'
      cases hpush'
      exact ih hholds
    · rw [h.push_full hroom] at hpush
      cases hpush
  | @pop stk stk₁ stk₂ ob ops hpop hrest ih =>
    obtain ⟨stk₃, hpop', hholds⟩ := h.pop_ok
    rw [hpop] at hpop'
    cases hpop'
    obtain ⟨hrest', hlast⟩ := ih hholds
    exact ⟨hrest', rfl, hlast⟩

/-- An array can be used so. -/
theorem Stack.Holds.exists_uses (h : stk.Holds n l) (hlast : LastIn l ops)
    (hroom : InRoom n l ops) : ∃ stk', stk.Uses ops stk' := by
  induction ops generalizing stk l with
  | nil => exact ⟨stk, .nil stk⟩
  | cons op ops ih =>
    cases op with
    | push ob =>
      obtain ⟨stk₁, hpush, hholds⟩ := h.push_ok hroom.1 ob
      obtain ⟨stk', huses⟩ := ih hholds hlast hroom.2
      exact ⟨stk', .push hpush huses⟩
    | pop ob =>
      obtain ⟨rfl, hlast'⟩ := hlast
      obtain ⟨stk₁, hpop, hholds⟩ := h.pop_ok
      obtain ⟨stk', huses⟩ := ih hholds hlast' hroom
      exact ⟨stk', .pop hpop huses⟩

end uses

end koala.stack
