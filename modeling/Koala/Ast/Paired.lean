import Koala.Ast.Once

open koala.parser koala.typedesc

namespace koala.ast

set_option linter.style.nameCheck false

/-- An error is reported, and there is no statement. -/
def Reports (st : State) (r : Res (Option Stmt × State)) : Prop :=
  ∃ st' e, r = .ok (none, st') ∧ st'.errors = st.errors ++ [e]

/-- A statement is returned without an error. -/
def Makes (st : State) (r : Res (Option Stmt × State)) (stmt : Stmt) : Prop :=
  ∃ st', r = .ok (some stmt, st') ∧ st'.errors = st.errors

/-- The single statements that a statement is: itself alone, or those of a list. -/
inductive Singles : Stmt → List Stmt → Prop where
  | alone (stmt : Stmt) : Singles stmt [stmt]
  | many (addr : Nat) (vec : List Stmt) (hmany : vec.length ≠ 1) : Singles (.LIST addr false vec) vec

/-- There is one statement for each left side, and `single` makes it of the left
side and the right side with the same number. -/
def Pairs {α β : Type} (single : Nat → α → β → Stmt) (left : List α) (right : List β)
    (vec : List Stmt) : Prop :=
  vec.length = left.length ∧ ∀ (i : Nat) (l : α) (r : β), left[i]? = some l →
    right[i]? = some r → ∃ addr, vec[i]? = some (single addr l r)

/-- How a builder pairs left sides with expressions. -/
structure Builds {α : Type} (single : Nat → α → Expr → Stmt)
    (several : Nat → List α → Expr → Stmt) (left : List α) (right : List Expr) (st : State)
    (r : Res (Option Stmt × State)) : Prop where
  error : Reports st r ↔
    left.length < right.length ∨ right.length < left.length ∧ 1 < right.length
  same (h : left.length = right.length) :
    ∃ stmt vec, Makes st r stmt ∧ Singles stmt vec ∧ Pairs single left right vec
  one (exp : Expr) (h : right = [exp]) (hmany : 1 < left.length) :
    ∃ addr, Makes st r (several addr left exp)

section paired

variable {st : State} {α β : Type}

theorem Makes.not_reports {r : Res (Option Stmt × State)} {stmt : Stmt} (h : Makes st r stmt) :
    ¬ Reports st r := by
  obtain ⟨st', hrun, _⟩ := h
  rintro ⟨st'', e, hnone, _⟩
  cases hrun.symm.trans hnone

theorem Pairs.nil (single : Nat → α → β → Stmt) : Pairs single [] [] [] :=
  ⟨rfl, fun _ _ _ hleft _ => nomatch hleft⟩

theorem Pairs.cons {single : Nat → α → β → Stmt} {left : List α} {right : List β}
    {vec : List Stmt} (h : Pairs single left right vec) (addr : Nat) (l : α) (r : β) :
    Pairs single (l :: left) (r :: right) (single addr l r :: vec) := by
  refine ⟨by rw [List.length_cons, List.length_cons, h.1], fun i l' r' hleft hright => ?_⟩
  cases i with
  | zero =>
    cases hleft
    cases hright
    exact ⟨addr, rfl⟩
  | succ i => exact h.2 i l' r' hleft hright

theorem pairs_single (single : Nat → α → β → Stmt) (addr : Nat) (l : α) (r : β) :
    Pairs single [l] [r] [single addr l r] := (Pairs.nil single).cons addr l r

/-- Declarations pair the names with their expressions. -/
theorem pairs_declarations {type : Option TypeDesc} {konst : Bool} {ids : List Ident}
    {exps : List (Option Expr)} (addr : Nat) (hlength : ids.length = exps.length) :
    Pairs (fun addr id exp => .VAR addr id type exp konst) ids exps
      (declarations type konst addr (ids.zip exps)) := by
  induction ids generalizing exps addr with
  | nil =>
    obtain rfl := List.length_eq_zero_iff.mp hlength.symm
    exact .nil _
  | cons id ids ih =>
    cases exps with
    | nil => cases hlength
    | cons exp exps => exact (ih (addr + 1) (Nat.succ.inj hlength)).cons addr id exp

theorem pairs_assignments {left right : List Expr} (addr : Nat)
    (hlength : left.length = right.length) :
    Pairs (fun addr lexp rexp => .ASSIGN addr .OP_ASSIGN lexp rexp) left right
      (assignments addr (left.zip right)) := by
  induction left generalizing right addr with
  | nil =>
    obtain rfl := List.length_eq_zero_iff.mp hlength.symm
    exact .nil _
  | cons lexp left ih =>
    cases right with
    | nil => cases hlength
    | cons rexp right => exact (ih (addr + 1) (Nat.succ.inj hlength)).cons addr lexp rexp

/-- Right sides that are all there. -/
theorem Pairs.some {single : Nat → α → Option β → Stmt} {left : List α} {right : List β}
    {vec : List Stmt} (h : Pairs single left (right.map some) vec) :
    Pairs (fun addr l r => single addr l (Option.some r)) left right vec := by
  refine ⟨h.1, fun i l r hleft hright => ?_⟩
  apply h.2 i l (Option.some r) hleft
  rw [List.getElem?_map, hright, Option.map_some]

end paired

section builds

variable {st : State} {exps : List Expr}

/-- A builder that makes a statement wherever the counts match reports no other error. -/
theorem Builds.of {α : Type} {single : Nat → α → Expr → Stmt}
    {several : Nat → List α → Expr → Stmt} {left : List α} {r : Res (Option Stmt × State)}
    (herror : left.length < exps.length ∨ exps.length < left.length ∧ 1 < exps.length →
      Reports st r)
    (hsame : left.length = exps.length →
      ∃ stmt vec, Makes st r stmt ∧ Singles stmt vec ∧ Pairs single left exps vec)
    (hone : ∀ exp, exps = [exp] → 1 < left.length → ∃ addr, Makes st r (several addr left exp))
    (hnone : exps = [] → left ≠ [] → ∃ stmt, Makes st r stmt) :
    Builds single several left exps st r := by
  refine ⟨⟨fun hreports => ?_, herror⟩, hsame, hone⟩
  by_contra hmatch
  by_cases hcount : left.length = exps.length
  · obtain ⟨stmt, vec, hmakes, _⟩ := hsame hcount
    exact hmakes.not_reports hreports
  · by_cases hlength : exps.length = 1
    · obtain ⟨exp, rfl⟩ := List.length_eq_one_iff.mp hlength
      obtain ⟨addr, hmakes⟩ := hone exp rfl (by omega)
      exact hmakes.not_reports hreports
    · have hnil : exps = [] := List.length_eq_zero_iff.mp (by omega)
      obtain ⟨stmt, hmakes⟩ := hnone hnil fun hleft => hcount (by rw [hleft, hnil]; rfl)
      exact hmakes.not_reports hreports

/-- Names without expressions are declared one by one. -/
theorem variables_uninitialised {ids : List Ident} (hids : ids ≠ []) (type : Option TypeDesc)
    (konst : Bool) : ∃ stmt vec, Makes st (__Parser_Do_Variables ids type [] konst st) stmt ∧
      Singles stmt vec ∧ Pairs (fun addr id exp => .VAR addr id type exp konst) ids
        (ids.map fun _ => none) vec := by
  by_cases hone : ids.length = 1
  · obtain ⟨id, rfl⟩ := List.length_eq_one_iff.mp hone
    exact ⟨_, _, ⟨_, rfl, rfl⟩, .alone _, pairs_single _ _ id none⟩
  · have hpos := List.length_pos_of_ne_nil hids
    have hpairs := @pairs_declarations type konst ids (ids.map fun _ => none) (st.mem.next + 1)
      (by rw [List.length_map])
    rw [← List.map_prod_left_eq_zip] at hpairs
    refine ⟨_, _, ⟨_, variables_none (by omega), rfl⟩, .many _ _ ?_, hpairs⟩
    rwa [hpairs.1]

theorem variables_builds {ids : List Ident} (type : Option TypeDesc) (konst : Bool)
    (howned : st.mem.Owned (nodes_list exps)) :
    Builds (fun addr id exp => .VAR addr id type (some exp) konst)
      (fun addr ids exp => .VARLIST addr ids type exp konst) ids exps st
      (__Parser_Do_Variables ids type exps konst st) := by
  apply Builds.of
  · intro hmismatch
    obtain ⟨pos, hrun⟩ := variables_mismatch ((validate_count_iff _ _).mpr hmismatch) howned
    exact ⟨_, _, hrun, rfl⟩
  · intro hsame
    by_cases hone : ids.length = 1
    · obtain ⟨id, rfl⟩ := List.length_eq_one_iff.mp hone
      obtain ⟨exp, rfl⟩ := List.length_eq_one_iff.mp (hsame.symm.trans hone)
      exact ⟨_, _, ⟨_, rfl, rfl⟩, .alone _, pairs_single _ _ id exp⟩
    · have hpairs := @pairs_declarations type konst ids (exps.map some) (st.mem.next + 1)
        (by rw [List.length_map, hsame])
      refine ⟨_, _, ⟨_, variables_same hsame hone, rfl⟩, .many _ _ ?_, hpairs.some⟩
      rwa [hpairs.1]
  · rintro exp rfl hmany
    exact ⟨_, _, variables_several hmany, rfl⟩
  · rintro rfl hids
    obtain ⟨stmt, _, hmakes, _⟩ := @variables_uninitialised st ids hids type konst
    exact ⟨stmt, hmakes⟩

theorem typeless_builds {names : List (Head × CString)} (hnames : names ≠ []) (hexps : exps ≠ [])
    (howned : st.mem.Owned (nodes_list (names.map named) ++ nodes_list exps)) :
    Builds (fun addr id exp => .VAR addr id none (some exp) false)
      (fun addr ids exp => .VARLIST addr ids none exp false) (names.map ident) exps st
      (Parser_Do_Typeless_Variables (names.map named) exps st) := by
  have hlength : (names.map ident).length = names.length := List.length_map _
  apply Builds.of
  · rw [hlength]
    intro hmismatch
    obtain ⟨p, rest, rfl⟩ := List.exists_cons_of_ne_nil hnames
    have hrun := @typeless_unmatched st exps (named p) (rest.map named)
      (by rw [validate_count_iff, List.length_cons, List.length_map]; exact hmismatch)
    have hboth := @free_both_ok (st.Syntax_Error (named p).head.pos
      "left and expr are not matched") (named p :: rest.map named) exps howned
    exact ⟨_, _, hrun.trans hboth, rfl⟩
  · rw [hlength]
    intro hsame
    by_cases hone : names.length = 1
    · obtain ⟨p, rfl⟩ := List.length_eq_one_iff.mp hone
      obtain ⟨exp, rfl⟩ := List.length_eq_one_iff.mp (hsame.symm.trans hone)
      exact ⟨_, _, ⟨_, typeless_single p howned, rfl⟩, .alone _, pairs_single _ _ (ident p) exp⟩
    · have hpairs := @pairs_declarations none false (names.map ident) (exps.map some)
        (st.mem.next + 1) (by rw [hlength, hsame, List.length_map])
      have hrun := typeless_pairs hsame hone howned
      rw [initialised_zip (by omega), List.drop_zero] at hrun
      refine ⟨_, _, ⟨_, hrun, rfl⟩, .many _ _ ?_, hpairs.some⟩
      rwa [hpairs.1, hlength]
  · rw [hlength]
    rintro exp rfl hmany
    exact ⟨_, _, typeless_several hmany howned, rfl⟩
  · exact fun hnil => absurd hnil hexps

theorem assign_builds {left : List Expr} (hexps : exps ≠ [])
    (hstored : ∀ e ∈ left, Expr_Maybe_Stored e = true)
    (howned : st.mem.Owned (nodes_list left ++ nodes_list exps)) :
    Builds (fun addr lexp rexp => .ASSIGN addr .OP_ASSIGN lexp rexp) Stmt.ASSIGNLIST left exps st
      (Parser_Do_Assignments left exps st) := by
  apply Builds.of
  · intro hmismatch
    obtain ⟨e, rest, rfl⟩ := List.exists_cons_of_ne_nil hexps
    have hrun := @assign_unmatched st left e rest ((validate_count_iff _ _).mpr hmismatch)
    have hboth := @free_both_ok (st.Syntax_Error e.head.pos "left and right are not matched")
      left (e :: rest) howned
    exact ⟨_, _, hrun.trans hboth, rfl⟩
  · intro hsame
    by_cases hone : left.length = 1
    · obtain ⟨lexp, rfl⟩ := List.length_eq_one_iff.mp hone
      obtain ⟨rexp, rfl⟩ := List.length_eq_one_iff.mp (hsame.symm.trans hone)
      exact ⟨_, _, ⟨_, assign_single (hstored lexp List.mem_cons_self), rfl⟩, .alone _,
        pairs_single _ _ lexp rexp⟩
    · have hpairs := pairs_assignments (st.mem.next + 1) hsame
      refine ⟨_, _, ⟨_, assign_pairs hstored hsame hone, rfl⟩, .many _ _ ?_, hpairs⟩
      rwa [hpairs.1]
  · rintro exp rfl hmany
    have hfind : left.find? (fun lexp => Expr_Maybe_Stored lexp = false) = none := by
      refine List.find?_eq_none.mpr fun e he => ?_
      rw [hstored e he]
      exact nofun
    have hrun := @assign_copies st left exp hmany
    rw [hfind] at hrun
    exact ⟨_, _, hrun, rfl⟩
  · exact fun hnil => absurd hnil hexps

/-- The three builders pair left sides with expressions, and report an error if
and only if the counts do not match. -/
theorem builds_paired {names : List (Head × CString)} {left : List Expr}
    (ids : List Ident) (type : Option TypeDesc) (konst : Bool) (hids : ids ≠ [])
    (hnames : names ≠ []) (hstored : ∀ e ∈ left, Expr_Maybe_Stored e = true)
    (howned : st.mem.Owned (nodes_list (names.map named) ++ nodes_list exps))
    (howned' : st.mem.Owned (nodes_list left ++ nodes_list exps)) :
    Builds (fun addr id exp => .VAR addr id type (some exp) konst)
      (fun addr ids exp => .VARLIST addr ids type exp konst) ids exps st
      (__Parser_Do_Variables ids type exps konst st) ∧
    (exps = [] → ∃ stmt vec, Makes st (__Parser_Do_Variables ids type exps konst st) stmt ∧
      Singles stmt vec ∧ Pairs (fun addr id exp => .VAR addr id type exp konst) ids
        (ids.map fun _ => none) vec) ∧
    (exps ≠ [] → Builds (fun addr id exp => .VAR addr id none (some exp) false)
      (fun addr ids exp => .VARLIST addr ids none exp false) (names.map ident) exps st
      (Parser_Do_Typeless_Variables (names.map named) exps st)) ∧
    (exps ≠ [] → Builds (fun addr lexp rexp => .ASSIGN addr .OP_ASSIGN lexp rexp)
      Stmt.ASSIGNLIST left exps st (Parser_Do_Assignments left exps st)) := by
  refine ⟨variables_builds type konst ?_, ?_, fun hexps => typeless_builds hnames hexps howned,
    fun hexps => assign_builds hexps hstored howned'⟩
  · refine howned'.subperm ?_
    exact (List.sublist_append_right _ _).subperm
  · rintro rfl
    exact variables_uninitialised hids type konst

/-- The names `a` and `b` with the expressions `1` and `2`. -/
theorem builds_paired_two :
    Builds (fun addr id exp => .VAR addr id none (some exp) false)
      (fun addr ids exp => .VARLIST addr ids none exp false) [parser.name_a, parser.name_b]
      [exp_one, exp_two] some_nodes (Parser_Do_Typeless_Variables
        [named (node 0, parser.name_a.name), named (node 1, parser.name_b.name)]
        [exp_one, exp_two] some_nodes) := by
  have howned := some_nodes_owned [0, 1, 3, 4] (by decide) (by decide)
  have hboth := @builds_paired some_nodes [exp_one, exp_two] [(node 0, parser.name_a.name),
    (node 1, parser.name_b.name)]
    [named (node 0, parser.name_a.name), named (node 1, parser.name_b.name)] [parser.name_a]
    none false (by simp) (by simp) (by decide) howned howned
  exact hboth.2.2.1 (by simp)

end builds

end koala.ast
