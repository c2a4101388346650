import Mathlib.Algebra.Order.BigOperators.Group.List
import Mathlib.Algebra.Order.Ring.Int
import Mathlib.Data.List.TakeWhile
import Mathlib.Tactic.Common

namespace koala

set_option linter.style.nameCheck false

/-- The ways a C function can fail to return: a failed assertion, a read
through a null pointer, a read of an uninitialised variable, an access outside
an array, a signed overflow, a call of `exit`, or a recursion deeper than the
fuel it is given. -/
inductive Fault where
  | assertion
  | null
  | uninitialized
  | bounds
  | overflow
  | exit
  | fuel
  deriving DecidableEq, Repr

abbrev Res := Except Fault

theorem bind_eq_ok_iff {α β : Type} {x : Res α} {f : α → Res β} {y : β} :
    (x >>= f) = .ok y ↔ ∃ a, x = .ok a ∧ f a = .ok y := by
  cases x <;> simp [Bind.bind, Except.bind]

@[simp] theorem ok_bind {α β : Type} (a : α) (f : α → Res β) :
    ((.ok a : Res α) >>= f) = f a := rfl

@[simp] theorem error_bind {α β : Type} (e : Fault) (f : α → Res β) :
    ((.error e : Res α) >>= f) = .error e := rfl

def INT_MAX : Nat := 2 ^ 31 - 1

/-- The sum of two `int`s. -/
def addInt (a b : Nat) : Res Nat := if a + b ≤ INT_MAX then .ok (a + b) else .error .overflow

theorem addInt_eq_ok_iff {a b n : Nat} :
    addInt a b = .ok n ↔ a + b ≤ INT_MAX ∧ n = a + b := by
  unfold addInt
  split
  · next h => simp [h, eq_comm]
  · next h => simp [h]

/-- A NUL-terminated string: its bytes before the NUL. -/
@[ext] structure CString where
  bytes : List UInt8
  nonul : 0 ∉ bytes
  deriving DecidableEq

namespace CString

theorem nil_nonul : (0 : UInt8) ∉ ([] : List UInt8) := List.not_mem_nil

/-- The string that starts a buffer. -/
def ofData (data : List UInt8) : CString where
  bytes := data.takeWhile (· ≠ 0)
  nonul h := by simpa using List.mem_takeWhile_imp h

theorem bytes_ofData {data : List UInt8} (h : 0 ∉ data) : (ofData data).bytes = data := by
  refine List.takeWhile_eq_self_iff.mpr fun c hc => ?_
  have hne : c ≠ 0 := fun heq => h (heq ▸ hc)
  simpa using hne

theorem ofData_bytes (s : CString) : ofData s.bytes = s := by
  ext1
  exact bytes_ofData s.nonul

theorem ofData_append_nul (s : CString) (rest : List UInt8) :
    ofData (s.bytes ++ 0 :: rest) = s := by
  ext1
  have hall : ∀ c ∈ s.bytes, (decide (c ≠ 0)) = true := by
    intro c hc
    have hne : c ≠ 0 := fun heq => s.nonul (heq ▸ hc)
    simpa using hne
  calc (s.bytes ++ 0 :: rest).takeWhile (fun c => decide (c ≠ 0))
      = s.bytes ++ (0 :: rest).takeWhile (fun c => decide (c ≠ 0)) :=
        List.takeWhile_append_of_pos hall
    _ = s.bytes := by simp

end CString

end koala
