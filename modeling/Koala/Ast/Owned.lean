import Koala.Ast.Builders
import Koala.Parser.Table
import Mathlib.Data.List.Perm.Basic
import Mathlib.Data.List.Perm.Subperm

open koala.parser koala.typedesc

namespace koala.ast

set_option linter.style.nameCheck false

/-- The reference that a node takes. -/
def take (desc : Option TypeDesc) : List Change := desc.toList.map .INCREF

/-- The state after `n` nodes were allocated. -/
def State.made (st : State) (n : Nat) (changes : List Change) : State :=
  { st with mem :=
    { st.mem with next := st.mem.next + n, changes := st.mem.changes ++ changes } }

/-- The state after nodes were freed. -/
def State.released (st : State) (nodes : List Nat) (drops : List TypeDesc) : State :=
  { st with mem := st.mem.release nodes drops }

/-- An identifier as an expression, and as it is declared. -/
def named (p : Head × CString) : Expr := .ID p.1 p.2

def ident (p : Head × CString) : Ident := ⟨p.2, p.1.pos⟩

def Expr.isIdent : Expr → Bool
  | .ID .. => true
  | _ => false

/-- The declarations at the addresses from `addr` on. -/
def declarations (type : Option TypeDesc) (konst : Bool) :
    Nat → List (Ident × Option Expr) → List Stmt
  | _, [] => []
  | addr, (id, exp) :: pairs =>
    .VAR addr id type exp konst :: declarations type konst (addr + 1) pairs

/-- The assignments at the addresses from `addr` on. -/
def assignments : Nat → List (Expr × Expr) → List Stmt
  | _, [] => []
  | addr, (left, right) :: pairs =>
    .ASSIGN addr .OP_ASSIGN left right :: assignments (addr + 1) pairs

/-- The identifiers with the expressions from number `i` on. -/
def initialised (exps : List Expr) : Nat → List Ident → List (Ident × Option Expr)
  | _, [] => []
  | i, id :: ids => (id, exps[i]?) :: initialised exps (i + 1) ids

section pairs

variable {exps : List Expr} {type : Option TypeDesc} {konst : Bool}

theorem initialised_nil (i : Nat) (ids : List Ident) :
    initialised [] i ids = ids.map fun id => (id, none) := by
  induction ids generalizing i with
  | nil => rfl
  | cons id ids ih => rw [initialised, ih, List.map_cons, List.getElem?_nil]

theorem initialised_zip {i : Nat} {ids : List Ident} (hlength : i + ids.length ≤ exps.length) :
    initialised exps i ids = ids.zip ((exps.drop i).map some) := by
  induction ids generalizing i with
  | nil => rfl
  | cons id ids ih =>
    rw [List.length_cons] at hlength
    have hlt : i < exps.length := by omega
    rw [initialised, ih (by omega), List.drop_eq_getElem_cons hlt, List.map_cons, List.zip_cons_cons,
      List.getElem?_eq_getElem hlt]

theorem length_initialised (i : Nat) (ids : List Ident) :
    (initialised exps i ids).length = ids.length := by
  induction ids generalizing i with
  | nil => rfl
  | cons id ids ih => rw [initialised, List.length_cons, ih, List.length_cons]

theorem nodes_declarations (addr : Nat) (pairs : List (Ident × Option Expr)) :
    (nodes_stmts (declarations type konst addr pairs)).Perm
      ((pairs.flatMap fun p => nodes_opt p.2) ++ List.range' addr pairs.length) := by
  induction pairs generalizing addr with
  | nil => exact .refl _
  | cons p pairs ih =>
    obtain ⟨id, exp⟩ := p
    rw [declarations, nodes_stmts, Stmt.nodes, List.flatMap_cons, List.length_cons,
      List.range'_succ, List.append_assoc, List.append_assoc]
    refine List.Perm.append_left _ ?_
    rw [List.singleton_append]
    exact ((ih (addr + 1)).cons addr).trans List.perm_middle.symm

theorem nodes_zip {α : Type} {ids : List α} (hlength : ids.length ≤ exps.length) :
    ((ids.zip (exps.map some)).flatMap fun p => nodes_opt p.2) =
      nodes_list (exps.take ids.length) := by
  induction ids generalizing exps with
  | nil => rfl
  | cons id ids ih =>
    cases exps with
    | nil => cases hlength
    | cons exp exps =>
      have hrest := ih (Nat.le_of_succ_le_succ hlength)
      rw [List.map_cons, List.zip_cons_cons, List.flatMap_cons, hrest]
      rfl

theorem nodes_assignments {left right : List Expr} (hlength : left.length = right.length)
    (addr : Nat) : (nodes_stmts (assignments addr (left.zip right))).Perm
      (nodes_list left ++ nodes_list right ++ List.range' addr left.length) := by
  induction left generalizing right addr with
  | nil =>
    obtain rfl := List.length_eq_zero_iff.mp hlength.symm
    exact .refl _
  | cons lexp left ih =>
    cases right with
    | nil => cases hlength
    | cons rexp right =>
      have hrest := ih (Nat.succ.inj hlength) (addr + 1)
      rw [List.zip_cons_cons, assignments, nodes_stmts, Stmt.nodes, nodes_list, nodes_list,
        List.length_cons, List.range'_succ]
      refine List.perm_iff_count.mpr fun a => ?_
      have hcount := List.perm_iff_count.mp hrest a
      simp only [List.count_append, List.count_cons, List.count_nil] at hcount ⊢
      omega

end pairs

section loops

variable {type : Option TypeDesc} {exps : List Expr} {konst : Bool}

theorem State.Malloc_eq (st : State) : st.Malloc = (st.mem.next, st.made 1 []) := by
  simp [State.Malloc, State.made, Memory.Malloc]

theorem State.made_made (st : State) (n n' : Nat) (changes changes' : List Change) :
    (st.made n changes).made n' changes' = st.made (n + n') (changes ++ changes') := by
  simp [State.made, Nat.add_assoc]

theorem var_decls_eq (i : Nat) (ids : List Ident) (st : State) :
    var_decls type exps konst i ids st =
      (declarations type konst st.mem.next (initialised exps i ids),
        st.made ids.length (ids.flatMap fun _ => take type)) := by
  induction ids generalizing i st with
  | nil => simp [var_decls, initialised, declarations, State.made]
  | cons id ids ih =>
    have hnext : ((st.TYPE_INCREF type).Malloc.2) = st.made 1 (take type) := rfl
    rw [var_decls]
    dsimp only [__Stmt_From_VarDecl]
    rw [hnext, ih, State.made_made, List.length_cons, Nat.add_comm 1]
    rfl

variable [Build]

/-- The identifiers at the front are declared. -/
theorem typeless_decls_append {addr i : Nat} {names : List (Head × CString)} (rest : List Expr)
    (vec : List Stmt) (st : State) (hlength : i + names.length ≤ exps.length) :
    typeless_decls exps addr i (names.map named ++ rest) vec st =
      typeless_decls exps addr (i + names.length) rest
        (vec ++ declarations none false st.mem.next (initialised exps i (names.map ident)))
        (st.made names.length []) := by
  induction names generalizing i vec st with
  | nil => simp [initialised, declarations, State.made]
  | cons p names ih =>
    rw [List.length_cons] at hlength
    have hsome : (exps[i]?).isSome = true := by
      rw [List.getElem?_eq_getElem (by omega)]
      rfl
    rw [List.map_cons, List.cons_append, named, typeless_decls, assert_of hsome, ok_bind]
    dsimp only [__Stmt_From_VarDecl]
    rw [State.Malloc_eq, ih _ _ (by omega), State.made_made, List.append_assoc, List.length_cons,
      Nat.add_comm 1, Nat.add_right_comm, Nat.add_assoc i]
    rfl

omit [Build] in
theorem typeless_ids_eq (names : List (Head × CString)) (st : State) :
    typeless_ids (names.map named) st = (some (names.map ident), st) := by
  induction names with
  | nil => rfl
  | cons p names ih =>
    rw [List.map_cons, named, typeless_ids, ih]
    rfl

omit [Build] in
/-- The first expression that is no identifier is an error. -/
theorem typeless_ids_bad (names : List (Head × CString)) {e : Expr} (he : e.isIdent = false)
    (rest : List Expr) (st : State) : typeless_ids (names.map named ++ e :: rest) st =
      (none, st.Syntax_Error e.head.pos "needs an identifier") := by
  induction names with
  | nil => cases e <;> first | rfl | cases he
  | cons p names ih =>
    rw [List.map_cons, List.cons_append, named, typeless_ids, ih]
    rfl

omit [Build] in
/-- The expressions at the front that can be stored are assigned. -/
theorem assign_stmts_append {i : Nat} {left right : List Expr} (rest : List Expr)
    (vec : List Stmt) (st : State) (hstored : ∀ e ∈ left, Expr_Maybe_Stored e = true)
    (hlength : i + left.length ≤ right.length) :
    assign_stmts right i (left ++ rest) vec st =
      assign_stmts right (i + left.length) rest
        (vec ++ assignments st.mem.next (left.zip (right.drop i))) (st.made left.length []) := by
  induction left generalizing i vec st with
  | nil => simp [assignments, State.made]
  | cons lexp left ih =>
    rw [List.length_cons] at hlength
    have hlt : i < right.length := by omega
    obtain ⟨hfirst, hrest⟩ := List.forall_mem_cons.mp hstored
    rw [List.cons_append, assign_stmts, hfirst, if_neg (by simp), List.getElem?_eq_getElem hlt,
      deref, ok_bind]
    dsimp only [Stmt_From_Assign]
    rw [State.Malloc_eq, ih _ _ hrest (by omega), State.made_made, List.append_assoc, List.length_cons,
      Nat.add_comm 1, Nat.add_right_comm, Nat.add_assoc i, List.drop_eq_getElem_cons hlt,
      List.zip_cons_cons]
    rfl

end loops

section split

theorem Expr.named_of_isIdent (e : Expr) (hident : e.isIdent = true) : ∃ p, e = named p := by
  cases e with
  | ID h name => exact ⟨(h, name), rfl⟩
  | _ => cases hident

/-- Either all are identifiers, or there is a first one that is none. -/
theorem split_idents (ids : List Expr) : (∃ names : List (Head × CString), ids = names.map named) ∨
    ∃ (names : List (Head × CString)) (e : Expr) (rest : List Expr),
      ids = names.map named ++ e :: rest ∧ e.isIdent = false := by
  induction ids with
  | nil => exact .inl ⟨[], rfl⟩
  | cons e ids ih =>
    cases hident : e.isIdent with
    | false => exact .inr ⟨[], e, ids, rfl, hident⟩
    | true =>
      obtain ⟨p, rfl⟩ := e.named_of_isIdent hident
      obtain ⟨names, rfl⟩ | ⟨names, e', rest, rfl, he⟩ := ih
      · exact .inl ⟨p :: names, rfl⟩
      · exact .inr ⟨p :: names, e', rest, rfl, he⟩

/-- Either all can be stored, or there is a first one that cannot. -/
theorem split_stored (left : List Expr) : (∀ e ∈ left, Expr_Maybe_Stored e = true) ∨
    ∃ (stored : List Expr) (e : Expr) (rest : List Expr), left = stored ++ e :: rest ∧
      (∀ e ∈ stored, Expr_Maybe_Stored e = true) ∧ Expr_Maybe_Stored e = false := by
  induction left with
  | nil => exact .inl (List.forall_mem_nil _)
  | cons e left ih =>
    cases hstored : Expr_Maybe_Stored e with
    | false => exact .inr ⟨[], e, left, rfl, List.forall_mem_nil _, hstored⟩
    | true =>
      obtain hall | ⟨stored, e', rest, rfl, hfront, he⟩ := ih
      · exact .inl (List.forall_mem_cons.mpr ⟨hstored, hall⟩)
      · exact .inr ⟨e :: stored, e', rest, rfl, List.forall_mem_cons.mpr ⟨hstored, hfront⟩, he⟩

end split

end koala.ast

open koala.parser koala.typedesc

namespace koala.ast

set_option linter.style.nameCheck false

/-- Nodes that are allocated, each at an address of its own. -/
structure Memory.Owned (m : Memory) (nodes : List Nat) : Prop where
  nodup : nodes.Nodup
  live : ∀ a ∈ nodes, a ∉ m.freed
  old : ∀ a ∈ nodes, a < m.next
  freed_old : ∀ a ∈ m.freed, a < m.next

/-- The nodes that were allocated between two states. -/
def new (st st' : State) : List Nat := List.range' st.mem.next (st'.mem.next - st.mem.next)

/-- Either a statement holds every node of `kept` once, and only `dropped` nodes
are freed, or an error is reported and every node is freed once, with all those
that were allocated. -/
def Owns (kept dropped : List Nat) (st : State) (r : Res (Option Stmt × State)) : Prop :=
  (∃ stmt st', r = .ok (some stmt, st') ∧ st'.errors = st.errors ∧
      stmt.nodes.Perm (kept ++ new st st') ∧ st'.mem.freed.Perm (dropped ++ st.mem.freed)) ∨
    ∃ st' e, r = .ok (none, st') ∧ st'.errors = st.errors ++ [e] ∧
      st'.mem.freed.Perm (kept ++ dropped ++ new st st' ++ st.mem.freed)

section owned

variable {m : Memory} {st : State} {nodes kept dropped : List Nat} {drops : List TypeDesc}

theorem State.free_ok {f : Memory → Res Memory} (hf : Frees f nodes drops)
    (howned : st.mem.Owned nodes) : st.free f = .ok (st.released nodes drops) := by
  unfold State.free
  rw [hf st.mem howned.nodup howned.live]
  rfl

theorem Memory.Owned.left {nodes' : List Nat} (h : m.Owned (nodes ++ nodes')) : m.Owned nodes where
  nodup := (List.nodup_append.mp h.nodup).1
  live a ha := h.live a (List.mem_append_left _ ha)
  old a ha := h.old a (List.mem_append_left _ ha)
  freed_old := h.freed_old

/-- After some nodes are freed the others are still owned. -/
theorem Memory.Owned.release {nodes' : List Nat} (h : m.Owned (nodes ++ nodes'))
    (drops : List TypeDesc) : (m.release nodes drops).Owned nodes' where
  nodup := (List.nodup_append.mp h.nodup).2.1
  live a ha hfreed := by
    rcases List.mem_append.mp hfreed with hfreed | hfreed
    · exact (List.nodup_append.mp h.nodup).2.2 a (List.mem_reverse.mp hfreed) a ha rfl
    · exact h.live a (List.mem_append_right _ ha) hfreed
  old a ha := h.old a (List.mem_append_right _ ha)
  freed_old a ha := by
    rcases List.mem_append.mp ha with ha | ha
    · exact h.old a (List.mem_append_left _ (List.mem_reverse.mp ha))
    · exact h.freed_old a ha

theorem Memory.Owned.subperm {nodes' : List Nat} (h : m.Owned nodes) (hsub : nodes'.Subperm nodes) :
    m.Owned nodes' where
  nodup := by
    obtain ⟨nodes'', hperm, hsublist⟩ := hsub
    exact hperm.nodup_iff.mp (h.nodup.sublist hsublist)
  live a ha := h.live a (List.Subperm.subset hsub ha)
  old a ha := h.old a (List.Subperm.subset hsub ha)
  freed_old := h.freed_old

/-- The nodes that are allocated next are owned too. -/
theorem Memory.Owned.allocated (h : st.mem.Owned nodes) (n : Nat) (changes : List Change) :
    (st.made n changes).mem.Owned (List.range' st.mem.next n ++ nodes) where
  nodup := by
    refine List.nodup_append.mpr ⟨List.nodup_range', h.nodup, fun a ha b hb => ?_⟩
    have hle := (List.mem_range'_1.mp ha).1
    exact Nat.ne_of_gt (Nat.lt_of_lt_of_le (h.old b hb) hle)
  live a ha hfreed := by
    rcases List.mem_append.mp ha with ha | ha
    · exact Nat.not_lt.mpr (List.mem_range'_1.mp ha).1 (h.freed_old a hfreed)
    · exact h.live a ha hfreed
  old a ha := by
    rcases List.mem_append.mp ha with ha | ha
    · exact (List.mem_range'_1.mp ha).2
    · exact Nat.lt_of_lt_of_le (h.old a ha) (Nat.le_add_right _ n)
  freed_old a ha := Nat.lt_of_lt_of_le (h.freed_old a ha) (Nat.le_add_right _ n)

theorem Memory.Owned.made (h : st.mem.Owned nodes) (n : Nat) (changes : List Change) :
    (st.made n changes).mem.Owned nodes where
  nodup := h.nodup
  live := h.live
  old a ha := Nat.lt_of_lt_of_le (h.old a ha) (Nat.le_add_right _ n)
  freed_old a ha := Nat.lt_of_lt_of_le (h.freed_old a ha) (Nat.le_add_right _ n)

theorem free_both_ok {left right : List Expr}
    (howned : st.mem.Owned (nodes_list left ++ nodes_list right)) :
    free_both left right st = .ok (none, st.released (nodes_list left ++ nodes_list right)
      (drops_list left ++ drops_list right)) := by
  have hsecond := @State.free_ok (st.released (nodes_list left) (drops_list left)) _ _ _
    (free_exprlist_frees right) (howned.release _)
  unfold free_both
  rw [State.free_ok (free_exprlist_frees left) howned.left, ok_bind, hsecond, ok_bind]
  unfold State.released
  rw [Memory.release_release]

/-- An error after which all nodes were freed. -/
theorem owns_error {st₁ : State} {e : Position × String} (hmem : st₁.mem = st.mem)
    (herrors : st₁.errors = st.errors ++ [e]) (hnodes : nodes.Perm (kept ++ dropped)) :
    Owns kept dropped st (.ok (none, st₁.released nodes drops)) := by
  refine .inr ⟨_, e, rfl, herrors, ?_⟩
  have hnew : new st (st₁.released nodes drops) = [] := by
    unfold new State.released Memory.release
    rw [hmem, Nat.sub_self]
    rfl
  rw [hnew, List.append_nil]
  change (nodes.reverse ++ st₁.mem.freed).Perm _
  rw [hmem]
  exact (nodes.reverse_perm.trans hnodes).append_right _

theorem new_made (st : State) (n : Nat) (changes : List Change) :
    new st (st.made n changes) = List.range' st.mem.next n := by
  unfold new State.made
  rw [Nat.add_sub_cancel_left]

/-- A statement at an address of its own, that nothing was freed for. -/
theorem owns_made {stmt : Stmt} {n : Nat} {changes : List Change}
    (hnodes : stmt.nodes.Perm (kept ++ List.range' st.mem.next n)) :
    Owns kept [] st (.ok (some stmt, st.made n changes)) := by
  refine .inl ⟨stmt, _, rfl, rfl, ?_, .refl _⟩
  rw [new_made]
  exact hnodes

/-- A list at an address before those of its statements. -/
theorem nodes_list_stmt {addr n : Nat} {vec : List Stmt}
    (hvec : (nodes_stmts vec).Perm (kept ++ List.range' (addr + 1) n)) :
    (Stmt.LIST addr false vec).nodes.Perm (kept ++ List.range' addr (1 + n)) := by
  rw [Stmt.nodes, Nat.add_comm 1, List.range'_succ]
  have hperm := hvec.append_right [addr]
  rw [List.append_assoc] at hperm
  exact hperm.trans (List.Perm.append_left kept List.perm_append_comm)

end owned

section count

theorem validate_count_iff (lsz rsz : Nat) :
    __validate_count lsz rsz = false ↔ lsz < rsz ∨ rsz < lsz ∧ 1 < rsz := by
  unfold __validate_count
  split
  · next hlt => exact iff_of_true rfl (.inl hlt)
  · next hge =>
    split
    · next hgt => simp; omega
    · next hle => simp; omega

end count

section variables_

variable [Build] {st : State} {ids : List Ident} {exps : List Expr} {type : Option TypeDesc}
  {konst : Bool}

theorem variables_mismatch (hcount : __validate_count ids.length exps.length = false)
    (howned : st.mem.Owned (nodes_list exps)) : ∃ pos,
      __Parser_Do_Variables ids type exps konst st =
        .ok (none, (st.Syntax_Error pos "left and right are not matched").released
          (nodes_list exps) (drops_list exps)) := by
  have hmismatch := (validate_count_iff _ _).mp hcount
  obtain ⟨e, rest, rfl⟩ := List.exists_cons_of_length_pos (by omega : 0 < exps.length)
  have hfree := @State.free_ok (st.Syntax_Error e.head.pos "left and right are not matched") _ _ _
    (free_exprlist_frees (e :: rest)) howned
  refine ⟨e.head.pos, ?_⟩
  unfold __Parser_Do_Variables
  dsimp only
  rw [if_pos hcount, List.getElem?_cons_zero, deref, ok_bind, hfree, ok_bind]

/-- As many names as expressions. -/
theorem variables_same (hsame : ids.length = exps.length) (hmany : ids.length ≠ 1) :
    __Parser_Do_Variables ids type exps konst st =
      .ok (some (.LIST st.mem.next false (declarations type konst (st.mem.next + 1)
        (ids.zip (exps.map some)))),
        st.made (1 + ids.length) ([] ++ ids.flatMap fun _ => take type)) := by
  have hcount : __validate_count ids.length exps.length ≠ false := by
    rw [Ne, validate_count_iff]
    omega
  unfold __Parser_Do_Variables
  dsimp only
  rw [if_neg hcount, if_pos hsame, if_neg hmany, State.Malloc_eq, var_decls_eq, State.made_made,
    initialised_zip (by omega), List.drop_zero]
  rfl

/-- Several names of one expression. -/
theorem variables_several {exp : Expr} (hmany : 1 < ids.length) :
    __Parser_Do_Variables ids type [exp] konst st =
      .ok (some (.VARLIST st.mem.next ids type exp konst), st.made 1 (take type)) := by
  have hcount : __validate_count ids.length [exp].length ≠ false := by
    rw [Ne, validate_count_iff, List.length_singleton]
    omega
  have hsame : ids.length ≠ [exp].length := Nat.ne_of_gt hmany
  unfold __Parser_Do_Variables
  dsimp only
  rw [if_neg hcount, if_neg hsame, assert_of ⟨hmany, Nat.le_refl 1⟩]
  rfl

/-- Several names of no expression. -/
theorem variables_none (hmany : 1 < ids.length) :
    __Parser_Do_Variables ids type [] konst st =
      .ok (some (.LIST st.mem.next false (declarations type konst (st.mem.next + 1)
        (ids.map fun id => (id, none)))),
        st.made (1 + ids.length) ([] ++ ids.flatMap fun _ => take type)) := by
  have hcount : __validate_count ids.length ([] : List Expr).length ≠ false := by
    rw [Ne, validate_count_iff, List.length_nil]
    omega
  have hsame : ids.length ≠ ([] : List Expr).length := Nat.ne_of_gt (Nat.zero_lt_of_lt hmany)
  unfold __Parser_Do_Variables
  dsimp only
  rw [if_neg hcount, if_neg hsame, assert_of ⟨Nat.zero_lt_of_lt hmany, Nat.zero_le 1⟩, ok_bind,
    if_neg (by decide), if_neg (Nat.ne_of_gt hmany), State.Malloc_eq, var_decls_eq,
    State.made_made, initialised_nil]
  rfl

/-- Declarations with a type or a keyword own their expressions. -/
theorem variables_owns (ids : List Ident) (type : Option TypeDesc) (konst : Bool)
    (howned : st.mem.Owned (nodes_list exps)) :
    Owns (nodes_list exps) [] st (__Parser_Do_Variables ids type exps konst st) := by
  cases hcount : __validate_count ids.length exps.length with
  | false =>
    obtain ⟨pos, hrun⟩ := @variables_mismatch _ st ids exps type konst hcount howned
    rw [hrun]
    exact owns_error rfl rfl (by rw [List.append_nil])
  | true =>
    have hmatch := mt (validate_count_iff _ _).mpr (by rw [hcount]; exact nofun)
    by_cases hsame : ids.length = exps.length
    · by_cases hone : ids.length = 1
      · obtain ⟨id, rfl⟩ := List.length_eq_one_iff.mp hone
        obtain ⟨exp, rfl⟩ := List.length_eq_one_iff.mp (hsame.symm.trans hone)
        refine @owns_made st _ _ 1 (take type) ?_
        rw [nodes_list, nodes_list, List.append_nil]
        exact .refl _
      · have hvec := @nodes_declarations type konst (st.mem.next + 1) (ids.zip (exps.map some))
        rw [nodes_zip hsame.le, hsame, List.take_length, List.length_zip, List.length_map, hsame,
          Nat.min_self] at hvec
        rw [variables_same hsame hone, hsame]
        exact owns_made (nodes_list_stmt hvec)
    · by_cases hone : exps.length = 1
      · obtain ⟨exp, rfl⟩ := List.length_eq_one_iff.mp hone
        rw [variables_several (by rw [List.length_singleton] at *; omega)]
        refine owns_made ?_
        rw [nodes_list, nodes_list, List.append_nil]
        exact .refl _
      · obtain rfl : exps = [] := List.length_eq_zero_iff.mp (by omega)
        by_cases hid : ids.length = 1
        · obtain ⟨id, rfl⟩ := List.length_eq_one_iff.mp hid
          exact @owns_made st _ _ 1 (take type) (.refl _)
        · have hvec := @nodes_declarations type konst (st.mem.next + 1)
            (ids.map fun id => (id, none))
          rw [List.flatMap_map, List.length_map] at hvec
          have hnil : (ids.flatMap fun id => nodes_opt (id, (none : Option Expr)).2) = [] :=
            List.flatMap_eq_nil_iff.mpr fun _ _ => rfl
          rw [hnil] at hvec
          rw [variables_none (by rw [List.length_nil] at *; omega)]
          exact owns_made (nodes_list_stmt hvec)

end variables_

end koala.ast
