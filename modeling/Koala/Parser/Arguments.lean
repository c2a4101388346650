import Koala.Parser.Expression
import Mathlib.Data.List.Forall2

open koala.typedesc

namespace koala.parser

set_option linter.style.nameCheck false

/-- The type of an expression is the one that is asked for. -/
abbrev Fits (desc : TypeDesc) (e : ExprInfo) : Prop := TypeDesc_Equal (some desc) e.desc = true

/-- Every expression has its type, and the ones behind the last type have the
base of that if it is a `varg`. -/
def Matches (descs : List TypeDesc) (exps : List ExprInfo) : Prop :=
  match descs.getLast? with
  | some (.varg base) => descs.length ≤ exps.length ∧
    List.Forall₂ Fits descs.dropLast (exps.take (descs.length - 1)) ∧
    ∀ e ∈ exps.drop (descs.length - 1), Fits base e
  | _ => List.Forall₂ Fits descs exps

/-- The leading types of more expressions than there are types. -/
def Overruns (descs : List TypeDesc) (exps : List ExprInfo) : Prop :=
  (∀ t ∈ descs, t.kind ≠ .TYPE_VARG) ∧ descs.length < exps.length ∧
    List.Forall₂ Fits descs (exps.take descs.length)

variable {descs pre : List TypeDesc} {es exps more : List ExprInfo} {base : TypeDesc} {i : Nat}

theorem matches_plain (hkind : ∀ t ∈ descs, t.kind ≠ .TYPE_VARG) :
    Matches descs exps ↔ List.Forall₂ Fits descs exps := by
  rw [Matches]
  split
  · next base hlast => exact absurd rfl (hkind _ (List.mem_of_getLast? hlast))
  · exact Iff.rfl

section check

variable [Build]

theorem check_exprs_rest (descs : List TypeDesc) (i : Nat) (base : TypeDesc)
    (exps : List ExprInfo) :
    check_exprs descs i (some base) exps = .ok true ∧ (∀ e ∈ exps, Fits base e) ∨
    check_exprs descs i (some base) exps = .ok false ∧ ¬ ∀ e ∈ exps, Fits base e := by
  induction exps generalizing i with
  | nil => exact .inl ⟨rfl, by simp⟩
  | cons e exps ih =>
    rw [check_exprs]
    by_cases hfits : Fits base e
    · rw [if_pos hfits]
      obtain ⟨hok, hall⟩ | ⟨hok, hnot⟩ := ih (i + 1)
      · exact .inl ⟨hok, List.forall_mem_cons.mpr ⟨hfits, hall⟩⟩
      · exact .inr ⟨hok, fun hall => hnot fun x hx => hall x (List.mem_cons_of_mem _ hx)⟩
    · rw [if_neg hfits]
      exact .inr ⟨rfl, fun hall => hfits (hall e List.mem_cons_self)⟩

theorem check_exprs_step {desc : TypeDesc} {e : ExprInfo} (hget : descs[i]? = some desc)
    (hkind : desc.kind ≠ .TYPE_VARG) (hfits : Fits desc e) :
    check_exprs descs i none (e :: exps) = check_exprs descs (i + 1) none exps := by
  rw [check_exprs, hget]
  cases desc with
  | varg base => exact absurd rfl hkind
  | _ => exact if_pos hfits

theorem check_exprs_stop {desc : TypeDesc} {e : ExprInfo} (hget : descs[i]? = some desc)
    (hkind : desc.kind ≠ .TYPE_VARG) (hfits : ¬ Fits desc e) :
    check_exprs descs i none (e :: exps) = .ok false := by
  rw [check_exprs, hget]
  cases desc with
  | varg base => exact absurd rfl hkind
  | _ => exact if_neg hfits

/-- The types before a `varg` are checked one by one. -/
theorem check_exprs_matched (more : List ExprInfo)
    (hdescs : ∀ j < pre.length, descs[i + j]? = pre[j]?) (hkind : ∀ t ∈ pre, t.kind ≠ .TYPE_VARG)
    (hmatch : List.Forall₂ Fits pre es) :
    check_exprs descs i none (es ++ more) = check_exprs descs (i + pre.length) none more := by
  induction hmatch generalizing i with
  | nil => rfl
  | @cons t e pre es hfits _ ih =>
    have hget : descs[i]? = some t := hdescs 0 (by simp)
    rw [List.cons_append, check_exprs_step hget (hkind t List.mem_cons_self) hfits,
      ih (i := i + 1) ?_ fun u hu => hkind u (List.mem_cons_of_mem t hu)]
    · rw [List.length_cons, Nat.add_assoc, Nat.add_comm 1]
    · intro j hj
      have hnext := hdescs (j + 1) (by simpa using hj)
      rwa [List.getElem?_cons_succ, Nat.add_comm j 1, ← Nat.add_assoc] at hnext

theorem check_exprs_unmatched (more : List ExprInfo)
    (hdescs : ∀ j < pre.length, descs[i + j]? = pre[j]?) (hkind : ∀ t ∈ pre, t.kind ≠ .TYPE_VARG)
    (hlength : es.length = pre.length) (hmatch : ¬ List.Forall₂ Fits pre es) :
    check_exprs descs i none (es ++ more) = .ok false := by
  induction pre generalizing i es with
  | nil =>
    rw [List.length_eq_zero_iff.mp hlength] at hmatch
    exact absurd .nil hmatch
  | cons t pre ih =>
    cases es with
    | nil => simp at hlength
    | cons e es =>
      have hget : descs[i]? = some t := hdescs 0 (by simp)
      by_cases hfits : Fits t e
      · rw [List.cons_append, check_exprs_step hget (hkind t List.mem_cons_self) hfits]
        refine ih (fun j hj => ?_) (fun u hu => hkind u (List.mem_cons_of_mem t hu))
          (by simpa using hlength) fun hrest => hmatch (.cons hfits hrest)
        have hnext := hdescs (j + 1) (by simpa using hj)
        rwa [List.getElem?_cons_succ, Nat.add_comm j 1, ← Nat.add_assoc] at hnext
      · exact check_exprs_stop hget (hkind t List.mem_cons_self) hfits

/-- Without a `varg`, an expression behind the last type is checked against the
null pointer, unless an earlier one does not fit. -/
theorem check_expr_types_plain (exps : List ExprInfo) (hkind : ∀ t ∈ descs, t.kind ≠ .TYPE_VARG) :
    (__check_expr_types descs exps = .ok true ∧ List.Forall₂ Fits descs exps) ∨
    (__check_expr_types descs exps = .ok false ∧ ¬ List.Forall₂ Fits descs exps ∧
      ¬ Overruns descs exps) ∨
    (__check_expr_types descs exps = .error .null ∧ Overruns descs exps) := by
  rw [__check_expr_types]
  by_cases hshort : exps.length < descs.length
  · rw [if_pos hshort]
    refine .inr (.inl ⟨rfl, fun hmatch => ?_, fun hover => ?_⟩)
    · have hlength := hmatch.length_eq
      omega
    · exact absurd hover.2.1 (by omega)
  rw [if_neg hshort]
  have hself : ∀ j < descs.length, descs[0 + j]? = descs[j]? := fun j _ => by rw [Nat.zero_add]
  have htake : (exps.take descs.length).length = descs.length := by
    rw [List.length_take]
    omega
  have hsplit := List.take_append_drop descs.length exps
  by_cases hmatch : List.Forall₂ Fits descs (exps.take descs.length)
  · have hrun := check_exprs_matched (exps.drop descs.length) hself hkind hmatch
    rw [hsplit, Nat.zero_add] at hrun
    rw [hrun]
    cases hdrop : exps.drop descs.length with
    | nil =>
      have hlength := List.drop_eq_nil_iff.mp hdrop
      rw [List.take_of_length_le hlength] at hmatch
      exact .inl ⟨rfl, hmatch⟩
    | cons e rest =>
      have hlong : descs.length < exps.length := by
        have hlength := congrArg List.length hdrop
        rw [List.length_drop, List.length_cons] at hlength
        omega
      refine .inr (.inr ⟨?_, hkind, hlong, hmatch⟩)
      rw [check_exprs, List.getElem?_eq_none le_rfl]
      rfl
  · have hrun := check_exprs_unmatched (exps.drop descs.length) hself hkind htake hmatch
    rw [hsplit] at hrun
    refine .inr (.inl ⟨hrun, fun hall => hmatch ?_, fun hover => hmatch hover.2.2⟩)
    rwa [List.take_of_length_le hall.length_eq.symm.le]

/-- With a trailing `varg` the check is exact. -/
theorem check_expr_types_varg (base : TypeDesc) (exps : List ExprInfo)
    (hkind : ∀ t ∈ pre, t.kind ≠ .TYPE_VARG) :
    (__check_expr_types (pre ++ [.varg base]) exps = .ok true ∧ Matches (pre ++ [.varg base]) exps) ∨
    (__check_expr_types (pre ++ [.varg base]) exps = .ok false ∧
      ¬ Matches (pre ++ [.varg base]) exps) := by
  have hmatches : Matches (pre ++ [.varg base]) exps ↔ pre.length + 1 ≤ exps.length ∧
      List.Forall₂ Fits pre (exps.take pre.length) ∧ ∀ e ∈ exps.drop pre.length, Fits base e := by
    simp [Matches]
  rw [__check_expr_types, hmatches]
  by_cases hshort : exps.length < pre.length + 1
  · rw [List.length_append, List.length_singleton, if_pos hshort]
    exact .inr ⟨rfl, fun hall => absurd hall.1 (by omega)⟩
  rw [List.length_append, List.length_singleton, if_neg hshort]
  have hpre : ∀ j < pre.length, (pre ++ [.varg base])[0 + j]? = pre[j]? := fun j hj => by
    rw [Nat.zero_add, List.getElem?_append_left hj]
  have htake : (exps.take pre.length).length = pre.length := by
    rw [List.length_take]
    omega
  have hsplit := List.take_append_drop pre.length exps
  by_cases hmatch : List.Forall₂ Fits pre (exps.take pre.length)
  · have hrun := check_exprs_matched (exps.drop pre.length) hpre hkind hmatch
    rw [hsplit, Nat.zero_add] at hrun
    rw [hrun]
    cases hdrop : exps.drop pre.length with
    | nil => exact absurd (List.drop_eq_nil_iff.mp hdrop) (by omega)
    | cons e rest =>
      have hget : (pre ++ [TypeDesc.varg base])[pre.length]? = some (.varg base) := by
        rw [List.getElem?_append_right le_rfl, Nat.sub_self]
        rfl
      have hlast : pre.length + 1 = (pre ++ [TypeDesc.varg base]).length := by
        rw [List.length_append, List.length_singleton]
      rw [check_exprs, hget, deref, ok_bind]
      dsimp only
      rw [assert, if_pos (.inl hlast), ok_bind]
      have hlong : pre.length + 1 ≤ exps.length := by omega
      by_cases hfits : Fits base e
      · rw [if_pos hfits]
        obtain ⟨hok, hall⟩ | ⟨hok, hnot⟩ := check_exprs_rest (pre ++ [.varg base])
          (pre.length + 1) base rest
        · exact .inl ⟨hok, hlong, hmatch, List.forall_mem_cons.mpr ⟨hfits, hall⟩⟩
        · exact .inr ⟨hok, fun h => hnot fun x hx => h.2.2 x (List.mem_cons_of_mem _ hx)⟩
      · rw [if_neg hfits]
        exact .inr ⟨rfl, fun h => hfits (h.2.2 e List.mem_cons_self)⟩
  · have hrun := check_exprs_unmatched (exps.drop pre.length) hpre hkind htake hmatch
    rw [hsplit] at hrun
    exact .inr ⟨hrun, fun h => hmatch h.2.1⟩

/-- The check accepts exactly the expressions that match, and returns. -/
def ChecksExactly (descs : List TypeDesc) (exps : List ExprInfo) : Prop :=
  ∃ matched, __check_expr_types descs exps = .ok matched ∧ (matched = true ↔ Matches descs exps)

/-- For all types of which at most the last one is a `varg` and all
expressions: the check is exact if and only if it does not get past the last
type, which takes more expressions than types, no `varg`, and that the leading
ones match. -/
theorem check_expr_types_exact_iff (hvarg : ∀ t ∈ descs.dropLast, t.kind ≠ .TYPE_VARG) :
    ChecksExactly descs exps ↔ ¬ Overruns descs exps := by
  have hplain : (∀ t ∈ descs, t.kind ≠ .TYPE_VARG) →
      (ChecksExactly descs exps ↔ ¬ Overruns descs exps) := by
    intro hkind
    rw [ChecksExactly, matches_plain hkind]
    obtain ⟨hok, hmatch⟩ | ⟨hok, hnot, hover⟩ | ⟨herror, hover⟩ :=
      check_expr_types_plain exps hkind
    · refine ⟨fun _ hover => ?_, fun _ => ⟨true, hok, by simpa using hmatch⟩⟩
      have hlength := hmatch.length_eq
      exact absurd hover.2.1 (by omega)
    · exact ⟨fun _ => hover, fun _ => ⟨false, hok, by simpa using hnot⟩⟩
    · refine ⟨fun ⟨_, hok, _⟩ => ?_, fun hnot => absurd hover hnot⟩
      rw [herror] at hok
      cases hok
  obtain rfl | ⟨pre, t, rfl⟩ := List.eq_nil_or_concat' descs
  · exact hplain (by simp)
  rw [List.dropLast_concat] at hvarg
  by_cases hlast : t.kind = .TYPE_VARG
  · cases t with
    | varg base =>
      have hover : ¬ Overruns (pre ++ [.varg base]) exps := fun hover =>
        hover.1 (.varg base) (by simp) rfl
      obtain ⟨hok, hmatch⟩ | ⟨hok, hnot⟩ := check_expr_types_varg base exps hvarg
      · exact ⟨fun _ => hover, fun _ => ⟨true, hok, by simpa using hmatch⟩⟩
      · exact ⟨fun _ => hover, fun _ => ⟨false, hok, by simpa using hnot⟩⟩
    | _ => cases hlast
  · refine hplain fun u hu => ?_
    obtain hu | hu := List.mem_append.mp hu
    · exact hvarg u hu
    · exact List.mem_singleton.mp hu ▸ hlast

end check

/-- An expression of type `int`, as parsing leaves it. -/
def int_expr : ExprInfo := ⟨some (.base .BASE_INT), none, none, none⟩

/-- Two arguments for `func(int, ...int)`. -/
theorem check_expr_types_exact_iff_varg :
    ChecksExactly [.base .BASE_INT, .varg (.base .BASE_INT)] [int_expr, int_expr] := by
  refine (check_expr_types_exact_iff ?_).mpr fun hover => ?_
  · intro t ht
    obtain rfl : t = .base .BASE_INT := by simpa using ht
    nofun
  · exact hover.1 (.varg (.base .BASE_INT)) (by simp) rfl

/-- One argument for `func()`. -/
theorem not_checks_exactly : ¬ ∀ (descs : List TypeDesc) (exps : List ExprInfo),
    (∀ t ∈ descs.dropLast, t.kind ≠ .TYPE_VARG) → (∀ e ∈ exps, e.desc.isSome = true) →
    ChecksExactly descs exps := by
  intro h
  obtain ⟨matched, hok, -⟩ := h [] [int_expr] (by simp) (by simp [int_expr])
  rw [__check_expr_types] at hok
  cases hok

end koala.parser

namespace koala.parser

set_option linter.style.nameCheck false

variable {t u : TypeDesc}

theorem TypeDesc_Equal_self (t : TypeDesc) : TypeDesc_Equal (some t) (some t) = true := if_pos rfl

theorem TypeDesc_Equal_comm (t u : TypeDesc) :
    TypeDesc_Equal (some t) (some u) = TypeDesc_Equal (some u) (some t) := by
  rw [TypeDesc_Equal, TypeDesc_Equal]
  by_cases heq : t = u
  · rw [if_pos heq, if_pos heq.symm]
  rw [if_neg heq, if_neg (Ne.symm heq)]
  by_cases hkind : t.kind = u.kind
  · rw [if_neg (by simpa using hkind), if_neg (by simpa using hkind.symm)]
    exact decide_eq_decide.mpr or_comm
  · rw [if_pos hkind, if_pos (Ne.symm hkind)]

/-- The kinds are compared before the wildcard is looked at. -/
theorem TypeDesc_Equal_any (t : TypeDesc) :
    TypeDesc_Equal (some (.base .BASE_ANY)) (some t) = true ↔ t.kind = .TYPE_BASE := by
  rw [TypeDesc_Equal]
  by_cases heq : TypeDesc.base .BASE_ANY = t
  · subst heq
    exact iff_of_true (if_pos rfl) rfl
  rw [if_neg heq]
  by_cases hkind : (TypeDesc.base .BASE_ANY).kind = t.kind
  · rw [if_neg (by simpa using hkind)]
    exact iff_of_true (decide_eq_true (.inl rfl)) hkind.symm
  · rw [if_pos hkind]
    exact iff_of_false nofun (Ne.symm hkind)

/-- What the wildcard promises: equality is reflexive and symmetric and holds
between `any` and the types of the arguments, and a call of a function whose
last parameter is `...any` is accepted with these behind matching ones. -/
def AcceptsAny [Build] (more : List TypeDesc) : Prop :=
  (∀ t, TypeDesc_Equal (some t) (some t) = true) ∧
  (∀ t u, TypeDesc_Equal (some t) (some u) = TypeDesc_Equal (some u) (some t)) ∧
  (∀ t ∈ more, TypeDesc_Equal (some t) (some (.base .BASE_ANY)) = true) ∧
  ∀ (pre : List TypeDesc) (es exps : List ExprInfo), (∀ t ∈ pre, t.kind ≠ .TYPE_VARG) →
    List.Forall₂ Fits pre es → exps.map ExprInfo.desc = more.map some →
    __check_expr_types (pre ++ [.varg (.base .BASE_ANY)]) (es ++ exps) = .ok true

/-- For every non-empty list of further arguments: `any` takes them if and only
if each has a base type. -/
theorem acceptsAny_iff [Build] {more : List TypeDesc} (hne : more ≠ []) :
    AcceptsAny more ↔ ∀ t ∈ more, t.kind = .TYPE_BASE := by
  refine ⟨fun h t ht => ?_, fun hbase => ⟨TypeDesc_Equal_self, TypeDesc_Equal_comm, fun t ht => ?_,
    fun pre es exps hkind hmatch hmore => ?_⟩⟩
  · rw [← TypeDesc_Equal_any, TypeDesc_Equal_comm]
    exact h.2.2.1 t ht
  · rw [TypeDesc_Equal_comm, TypeDesc_Equal_any]
    exact hbase t ht
  · obtain ⟨hok, -⟩ | ⟨-, hnot⟩ := check_expr_types_varg (.base .BASE_ANY) (es ++ exps)
      hkind
    · exact hok
    · refine absurd ?_ hnot
      have hlength := hmatch.length_eq
      have hpos : 0 < exps.length := by
        have hmap := congrArg List.length hmore
        rw [List.length_map, List.length_map] at hmap
        rw [hmap]
        exact List.length_pos_iff.mpr hne
      have hfits : ∀ e ∈ exps, Fits (.base .BASE_ANY) e := by
        intro e he
        have hdesc : e.desc ∈ more.map some := hmore ▸ List.mem_map_of_mem he
        obtain ⟨t, ht, heq⟩ := List.mem_map.mp hdesc
        rw [Fits, ← heq, TypeDesc_Equal_any]
        exact hbase t ht
      simp only [Matches, List.getLast?_append, List.getLast?_singleton, Option.some_or,
        List.dropLast_concat, List.length_append, List.length_singleton, Nat.add_sub_cancel]
      rw [hlength, List.take_left, List.drop_left]
      exact ⟨by omega, hmatch, hfits⟩

/-- An `int` and a `string`. -/
theorem acceptsAny_iff_base : AcceptsAny [.base .BASE_INT, .base .BASE_STRING] :=
  (acceptsAny_iff (by simp)).mpr (by simp [TypeDesc.kind])

/-- An array. -/
theorem not_acceptsAny : ¬ ∀ more : List TypeDesc, more ≠ [] → AcceptsAny more := by
  intro h
  have hall := h [.array 1 (.base .BASE_INT)] (by simp)
  have hequal := hall.2.2.1 (.array 1 (.base .BASE_INT)) (by simp)
  rw [TypeDesc_Equal_comm, TypeDesc_Equal_any] at hequal
  cases hequal

end koala.parser
