import Koala.Basic
import Mathlib.Data.List.Basic

namespace koala.scoped

variable {κ α : Type}

/-- The names of a scope with the places of their variables, in the order of
their declaration. -/
abbrev Scope (κ : Type) := List (κ × Nat)

/-- The scopes that are open, the innermost first, and the values of all the
places that were made so far. -/
structure Env (κ α : Type) where
  scopes : List (Scope κ)
  store : List (Option α)

namespace Env

/-- Outside of all functions. -/
def init : Env κ α := ⟨[], []⟩

def enter (env : Env κ α) : Env κ α := { env with scopes := [] :: env.scopes }

/-- The variables of a scope keep their values when their names are gone. -/
def leave (env : Env κ α) : Env κ α := { env with scopes := env.scopes.tail }

/-- A new variable of the innermost scope. -/
def declare (env : Env κ α) (name : κ) (value : Option α) : Env κ α where
  scopes := (env.scopes.headD [] ++ [(name, env.store.length)]) :: env.scopes.tail
  store := env.store ++ [value]

end Env

/-- The variables of the open scopes have places that were made. -/
def Env.Placed (env : Env κ α) : Prop :=
  ∀ scope ∈ env.scopes, ∀ var ∈ scope, var.2 < env.store.length

section names

variable [DecidableEq κ]

def Scope.find (scope : Scope κ) (name : κ) : Option Nat :=
  (List.find? (fun var => var.1 = name) scope).map Prod.snd

namespace Env

/-- The innermost variable of a name. -/
def find (env : Env κ α) (name : κ) : Option Nat :=
  env.scopes.findSome? fun scope => scope.find name

def value (env : Env κ α) (name : κ) : Option α := do
  let place ← env.find name
  let value ← env.store[place]?
  value

def assign (env : Env κ α) (name : κ) (value : α) : Option (Env κ α) :=
  (env.find name).map fun place => { env with store := env.store.set place (some value) }

end Env

end names

section lemmas

@[simp] theorem Env.enter_store (env : Env κ α) : env.enter.store = env.store := rfl

@[simp] theorem Env.leave_store (env : Env κ α) : env.leave.store = env.store := rfl

@[simp] theorem Env.declare_store (env : Env κ α) (name : κ) (value : Option α) :
    (env.declare name value).store = env.store ++ [value] := rfl

theorem Env.declare_scopes {env : Env κ α} {scope : Scope κ} {scopes : List (Scope κ)}
    (hscopes : env.scopes = scope :: scopes) (name : κ) (value : Option α) :
    (env.declare name value).scopes = (scope ++ [(name, env.store.length)]) :: scopes := by
  rw [Env.declare, hscopes]
  rfl

theorem Env.Placed.enter {env : Env κ α} (h : env.Placed) : env.enter.Placed := by
  intro scope hscope var hvar
  rcases List.mem_cons.mp hscope with rfl | hscope
  · cases hvar
  · exact h scope hscope var hvar

theorem Env.Placed.leave {env : Env κ α} (h : env.Placed) : env.leave.Placed :=
  fun scope hscope => h scope (List.mem_of_mem_tail hscope)

theorem Env.Placed.declare {env : Env κ α} {scope : Scope κ} {scopes : List (Scope κ)}
    (h : env.Placed) (hscopes : env.scopes = scope :: scopes) (name : κ) (value : Option α) :
    (env.declare name value).Placed := by
  have hlength : (env.declare name value).store.length = env.store.length + 1 := List.length_append
  intro other hother var hvar
  rw [Env.declare_scopes hscopes] at hother
  rw [hlength]
  have hold : ∀ other ∈ scope :: scopes, ∀ var ∈ other, var.2 < env.store.length + 1 :=
    fun other hmem var hvar => Nat.lt_succ_of_lt (h other (hscopes ▸ hmem) var hvar)
  rcases List.mem_cons.mp hother with rfl | hother
  · rcases List.mem_append.mp hvar with hvar | hvar
    · exact hold scope List.mem_cons_self var hvar
    · rw [List.mem_singleton.mp hvar]
      exact Nat.lt_succ_self _
  · exact hold other (List.mem_cons_of_mem _ hother) var hvar

variable [DecidableEq κ]

theorem Env.Placed.find {env : Env κ α} {scope : Scope κ} {scopes : List (Scope κ)} {name : κ}
    {place : Nat} (h : env.Placed) (hscopes : env.scopes = scope :: scopes)
    (hfind : scope.find name = some place) : place < env.store.length := by
  obtain ⟨var, hvar, rfl⟩ := Option.map_eq_some_iff.mp hfind
  exact h scope (hscopes ▸ List.mem_cons_self) var (List.mem_of_find?_eq_some hvar)

@[simp] theorem Scope.find_nil (name : κ) : Scope.find [] name = none := rfl

theorem Scope.find_append (scope : Scope κ) (name other : κ) (place : Nat) :
    Scope.find (scope ++ [(name, place)]) other =
      (scope.find other).or (if name = other then some place else none) := by
  unfold Scope.find
  rw [List.find?_append, List.find?_singleton]
  cases List.find? (fun var => decide (var.1 = other)) scope with
  | some var => rfl
  | none =>
    by_cases hname : name = other
    · simp [hname]
    · simp [hname]

theorem Scope.find_of_mem {scope : Scope κ} {name : κ} (h : name ∈ scope.map Prod.fst) :
    ∃ place, scope.find name = some place := by
  obtain ⟨var, hvar, rfl⟩ := List.mem_map.mp h
  have hsome : (List.find? (fun other => decide (other.1 = var.1)) scope).isSome = true :=
    List.find?_isSome.mpr ⟨var, hvar, decide_eq_true rfl⟩
  obtain ⟨found, hfound⟩ := Option.isSome_iff_exists.mp hsome
  exact ⟨found.2, by rw [Scope.find, hfound, Option.map_some]⟩

/-- What the innermost scope declares hides the scopes around it. -/
theorem Env.find_of_head {env : Env κ α} {scope : Scope κ} {scopes : List (Scope κ)} {name : κ}
    {place : Nat} (hscopes : env.scopes = scope :: scopes) (hfind : scope.find name = some place) :
    env.find name = some place := by
  rw [Env.find, hscopes, List.findSome?_cons, hfind]

theorem Env.value_eq_some_iff {env : Env κ α} {name : κ} {v : α} :
    env.value name = some v ↔ ∃ place, env.find name = some place ∧
      env.store[place]? = some (some v) := by
  unfold Env.value
  rw [Option.bind_eq_bind, Option.bind_eq_some_iff]
  refine exists_congr fun place => and_congr_right fun _ => ?_
  rw [Option.bind_eq_bind, Option.bind_eq_some_iff]
  constructor
  · rintro ⟨value, hvalue, rfl⟩
    exact hvalue
  · exact fun hvalue => ⟨some v, hvalue, rfl⟩

theorem Env.assign_eq_some_iff {env env' : Env κ α} {name : κ} {v : α} :
    env.assign name v = some env' ↔ ∃ place, env.find name = some place ∧
      env' = { env with store := env.store.set place (some v) } := by
  unfold Env.assign
  rw [Option.map_eq_some_iff]
  exact exists_congr fun place => and_congr_right fun _ => eq_comm

end lemmas

section slots

/-- A memory whose slots from number 1 on hold the values of the places; the
slots behind them are not used yet. -/
structure Holds (slots : Nat → Option α) (store : List (Option α)) : Prop where
  value : ∀ place v, store[place]? = some v → slots (place + 1) = v
  fresh : ∀ place, store.length ≤ place → slots (place + 1) = none

variable {slots : Nat → Option α} {store : List (Option α)}

/-- A variable without a value gets a fresh slot. -/
theorem Holds.declare (h : Holds slots store) : Holds slots (store ++ [none]) where
  value place v hv := by
    by_cases hplace : place < store.length
    · rw [List.getElem?_append_left hplace] at hv
      exact h.value place v hv
    · rw [List.getElem?_append_right (Nat.le_of_not_lt hplace), List.getElem?_singleton] at hv
      split at hv
      · cases hv
        exact h.fresh place (Nat.le_of_not_lt hplace)
      · cases hv
  fresh place hplace := by
    rw [List.length_append, List.length_singleton] at hplace
    exact h.fresh place (by omega)

/-- A value is stored in the slot of a place. -/
theorem Holds.assign (h : Holds slots store) {place : Nat} (v : α)
    (hplace : place < store.length) :
    Holds (Function.update slots (place + 1) (some v)) (store.set place (some v)) where
  value other w hw := by
    rw [List.getElem?_set] at hw
    split at hw
    · next heq =>
      subst heq
      cases hw
      exact Function.update_self ..
    · next hne =>
      rw [Function.update_of_ne (by omega)]
      exact h.value other w hw
  fresh other hother := by
    rw [List.length_set] at hother
    rw [Function.update_of_ne (by omega)]
    exact h.fresh other hother

/-- A variable with a value gets it in a fresh slot. -/
theorem Holds.init (h : Holds slots store) (v : α) :
    Holds (Function.update slots (store.length + 1) (some v)) (store ++ [some v]) := by
  have hlast : store.length < (store ++ [none]).length := by simp
  have hset := h.declare.assign v hlast
  rwa [List.set_append_right _ _ (Nat.le_refl _), Nat.sub_self, List.set_cons_zero] at hset

end slots

end koala.scoped
