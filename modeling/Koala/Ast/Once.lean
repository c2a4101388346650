import Koala.Ast.Owned
import Koala.Parser.Accepted

open koala.parser koala.typedesc

namespace koala.ast

set_option linter.style.nameCheck false

section once

variable {st : State} {kept dropped nodes : List Nat} {drops : List TypeDesc}

/-- A node that was freed cannot be freed again. -/
theorem Free_Expr_freed (e : Expr) {m : Memory} (hfreed : e.head.addr ∈ m.freed) :
    Free_Expr e m = .error .bounds := by
  have htouch : m.touch e.head.addr = .error .bounds := if_pos hfreed
  cases e with
  | NIL h | SELF h | SUPER h | CONST h _ | ID h _ =>
    have hdecref : (m.TYPE_DECREF h.desc).touch h.addr = .error .bounds := if_pos hfreed
    change ((m.TYPE_DECREF h.desc).touch h.addr >>= _) = _
    rw [hdecref]
    rfl
  | _ =>
    change (m.touch _ >>= _) = _
    rw [Expr.head] at htouch
    rw [htouch]
    rfl

theorem nodes_list_append (vec vec' : List Expr) :
    nodes_list (vec ++ vec') = nodes_list vec ++ nodes_list vec' := by
  induction vec with
  | nil => rfl
  | cons exp vec ih => rw [List.cons_append, nodes_list, nodes_list, ih, List.append_assoc]

theorem head_mem (e : Expr) : e.head.addr ∈ e.nodes := by
  cases e <;> simp [Expr.head, Expr.nodes]

theorem State.released_made (st : State) (n : Nat) :
    (st.released nodes drops).made n [] = (st.made n []).released nodes drops := by
  simp [State.released, State.made, Memory.release]

/-- A statement for which some nodes were freed. -/
theorem owns_freed {stmt : Stmt} {n : Nat} {changes : List Change}
    (hnodes : stmt.nodes.Perm (kept ++ List.range' st.mem.next n)) :
    Owns kept dropped st (.ok (some stmt, (st.made n changes).released dropped drops)) := by
  refine .inl ⟨stmt, _, rfl, rfl, ?_, dropped.reverse_perm.append_right _⟩
  have hnew : new st ((st.made n changes).released dropped drops) = List.range' st.mem.next n :=
    new_made st n changes
  rw [hnew]
  exact hnodes

theorem owns_fails {e : Fault} : ¬ Owns kept dropped st (.error e) := by
  rintro (⟨_, _, hrun, _⟩ | ⟨_, _, hrun, _⟩)
  · cases hrun
  · cases hrun

end once

section typeless

variable {st : State} {ids exps : List Expr} {names : List (Head × CString)}

/-- An error that is found before anything is allocated. -/
theorem owns_free_both {left right : List Expr} {kept dropped : List Nat}
    (howned : st.mem.Owned (nodes_list left ++ nodes_list right))
    (hnodes : (nodes_list left ++ nodes_list right).Perm (kept ++ dropped)) (pos : Position)
    (fmt : String) : Owns kept dropped st (free_both left right (st.Syntax_Error pos fmt)) := by
  have hfree := @free_both_ok (st.Syntax_Error pos fmt) left right howned
  rw [hfree]
  exact owns_error rfl rfl hnodes

/-- One identifier with one expression. -/
theorem typeless_single (p : Head × CString) {exp : Expr}
    (howned : st.mem.Owned (nodes_list [named p] ++ nodes_list [exp])) :
    Parser_Do_Typeless_Variables [named p] [exp] st =
      .ok (some (.VAR st.mem.next (ident p) none (some exp) false),
        (st.made 1 []).released (nodes_list [named p]) (drops_list [named p])) := by
  have hfree := State.free_ok (free_exprlist_frees [named p]) (howned.left.made 1 [])
  have hrun : Parser_Do_Typeless_Variables [named p] [exp] st =
      ((st.made 1 []).free (free_exprlist [named p]) >>= fun st' =>
        .ok (some (.VAR st.mem.next (ident p) none (some exp) false), st')) := by
    have hmade : st.made 1 [] = st.Malloc.2 := by rw [st.Malloc_eq]
    rw [hmade]
    rfl
  rw [hrun, hfree, ok_bind]

theorem typeless_no_ident {e exp : Expr} (he : e.isIdent = false) :
    Parser_Do_Typeless_Variables [e] [exp] st =
      free_both [e] [exp] (st.Syntax_Error e.head.pos "needs an identifier") := by
  cases e <;> first | rfl | cases he

theorem typeless_one {e exp : Expr} (howned : st.mem.Owned (nodes_list [e] ++ nodes_list [exp])) :
    Owns (nodes_list [exp]) (nodes_list [e]) st (Parser_Do_Typeless_Variables [e] [exp] st) := by
  cases hident : e.isIdent with
  | false =>
    rw [typeless_no_ident hident]
    exact owns_free_both howned List.perm_append_comm _ _
  | true =>
    obtain ⟨p, rfl⟩ := e.named_of_isIdent hident
    rw [typeless_single p howned]
    refine owns_freed ?_
    rw [nodes_list, nodes_list, List.append_nil]
    exact .refl _

/-- As many expressions as left sides. -/
theorem typeless_same (hsame : ids.length = exps.length) (hmany : ids.length ≠ 1) :
    Parser_Do_Typeless_Variables ids exps st =
      typeless_decls exps st.mem.next 0 ids [] (st.made 1 []) >>= fun r =>
        match r.1 with
        | none => free_both ids exps r.2
        | some vec => r.2.free (free_exprlist ids) >>= fun st' =>
          .ok (some (.LIST st.mem.next false vec), st') := by
  have hcount : __validate_count ids.length exps.length ≠ false := by
    rw [Ne, validate_count_iff]
    omega
  unfold Parser_Do_Typeless_Variables
  dsimp only
  rw [if_neg hcount, if_pos hsame, if_neg hmany]
  exact st.Malloc_eq ▸ rfl

/-- The nodes of the list that was filled when a left side is no identifier. -/
theorem nodes_declared (hlength : names.length ≤ exps.length) (addr : Nat) :
    (Stmt.LIST addr false (declarations none false (addr + 1)
      (initialised exps 0 (names.map ident)))).nodes.Perm
        (nodes_list (exps.take names.length) ++ List.range' addr (1 + names.length)) := by
  refine nodes_list_stmt ?_
  have hvec := @nodes_declarations none false (addr + 1) (initialised exps 0 (names.map ident))
  rw [length_initialised, initialised_zip (by rw [List.length_map]; omega), List.drop_zero,
    nodes_zip (by rwa [List.length_map]), List.length_map] at hvec
  rw [initialised_zip (by rw [List.length_map]; omega), List.drop_zero]
  exact hvec

/-- As many identifiers are declared one by one. -/
theorem typeless_pairs (hsame : names.length = exps.length) (hmany : names.length ≠ 1)
    (howned : st.mem.Owned (nodes_list (names.map named) ++ nodes_list exps)) :
    Parser_Do_Typeless_Variables (names.map named) exps st =
      .ok (some (.LIST st.mem.next false (declarations none false (st.mem.next + 1)
        (initialised exps 0 (names.map ident)))),
        (st.made (1 + names.length) []).released (nodes_list (names.map named))
          (drops_list (names.map named))) := by
  have hdecls := @typeless_decls_append exps _ st.mem.next 0 names [] [] (st.made 1 []) (by omega)
  rw [List.append_nil, typeless_decls, List.nil_append, State.made_made] at hdecls
  have hfree := State.free_ok (free_exprlist_frees (names.map named))
    (howned.left.made (1 + names.length) [])
  rw [typeless_same (by rw [List.length_map, hsame]) (by rwa [List.length_map]), hdecls, ok_bind]
  dsimp only
  rw [List.append_nil, hfree, ok_bind]
  rfl

theorem typeless_all (hsame : names.length = exps.length) (hmany : names.length ≠ 1)
    (howned : st.mem.Owned (nodes_list (names.map named) ++ nodes_list exps)) :
    Owns (nodes_list exps) (nodes_list (names.map named)) st
      (Parser_Do_Typeless_Variables (names.map named) exps st) := by
  have hnodes := nodes_declared hsame.le st.mem.next
  rw [hsame, List.take_length, ← hsame] at hnodes
  rw [typeless_pairs hsame hmany howned]
  exact owns_freed hnodes

theorem typeless_decls_bad {e : Expr} (he : e.isIdent = false) (addr i : Nat) (rest : List Expr)
    (vec : List Stmt) : typeless_decls exps addr i (e :: rest) vec st =
      (st.Syntax_Error e.head.pos "needs an identifier").free
        (Free_Stmt_Func (.LIST addr false vec)) >>= fun st' => .ok (none, st') := by
  cases e <;> first | rfl | cases he

/-- The first left side that is no identifier is at number `names.length`. -/
theorem typeless_bad {e : Expr} {rest : List Expr} (he : e.isIdent = false)
    (hids : ids = names.map named ++ e :: rest) (hsame : ids.length = exps.length)
    (hmany : ids.length ≠ 1) : Parser_Do_Typeless_Variables ids exps st =
      ((st.made (1 + names.length) []).Syntax_Error e.head.pos "needs an identifier").free
        (Free_Stmt_Func (.LIST st.mem.next false (declarations none false (st.mem.next + 1)
          (initialised exps 0 (names.map ident))))) >>= fun st' => free_both ids exps st' := by
  have hlength : 0 + names.length ≤ exps.length := by
    rw [← hsame, hids, List.length_append, List.length_map]
    omega
  have hdecls := @typeless_decls_append exps _ st.mem.next 0 names (e :: rest) [] (st.made 1 [])
    hlength
  rw [State.made_made, List.append_nil, List.nil_append, typeless_decls_bad he, ← hids] at hdecls
  rw [typeless_same hsame hmany, hdecls, bind_assoc]
  rfl

/-- The list is freed before the vectors are. -/
theorem free_list_both {stmt : Stmt} (howned : st.mem.Owned stmt.nodes) :
    (st.free (Free_Stmt_Func stmt) >>= fun st' => free_both ids exps st') =
      free_both ids exps (st.released stmt.nodes stmt.drops) := by
  rw [State.free_ok (Free_Stmt_Func_frees stmt) howned, ok_bind]

/-- Freeing the vectors uses an expression that was freed with the list. -/
theorem free_both_freed {exp : Expr} (howned : st.mem.Owned (nodes_list ids))
    (hfreed : exp.head.addr ∈ st.mem.freed) : free_both ids (exp :: exps) st = .error .bounds := by
  have hexp : (st.released (nodes_list ids) (drops_list ids)).free (free_exprlist (exp :: exps)) =
      .error .bounds := by
    unfold State.free
    rw [free_exprlist, Free_Expr_freed exp (List.mem_append_right _ hfreed)]
    rfl
  unfold free_both
  rw [State.free_ok (free_exprlist_frees ids) howned, ok_bind, hexp]
  rfl

/-- Where the first left side is no identifier, the list is still empty. -/
theorem typeless_empty {e : Expr} {rest : List Expr} (he : e.isIdent = false)
    (hsame : (e :: rest).length = exps.length) (hmany : (e :: rest).length ≠ 1)
    (howned : st.mem.Owned (nodes_list (e :: rest) ++ nodes_list exps)) :
    Parser_Do_Typeless_Variables (e :: rest) exps st =
      .ok (none, (((st.made 1 []).Syntax_Error e.head.pos
        "needs an identifier").released [st.mem.next] []).released
          (nodes_list (e :: rest) ++ nodes_list exps)
          (drops_list (e :: rest) ++ drops_list exps)) := by
  have hlive := howned.allocated 1 []
  have hrun := (@typeless_bad st (e :: rest) exps [] e rest he rfl hsame hmany).trans
    (free_list_both hlive.left)
  have hboth := @free_both_ok (((st.made 1 []).Syntax_Error e.head.pos
    "needs an identifier").released [st.mem.next] []) (e :: rest) exps (hlive.release [])
  exact hrun.trans hboth

theorem typeless_first {e : Expr} {rest : List Expr} (he : e.isIdent = false)
    (hsame : (e :: rest).length = exps.length) (hmany : (e :: rest).length ≠ 1)
    (howned : st.mem.Owned (nodes_list (e :: rest) ++ nodes_list exps)) :
    Owns (nodes_list exps) (nodes_list (e :: rest)) st
      (Parser_Do_Typeless_Variables (e :: rest) exps st) := by
  refine .inr ⟨_, _, typeless_empty he hsame hmany howned, rfl, ?_⟩
  have hnew : new st (st.made 1 []) = [st.mem.next] := new_made st 1 []
  change ((nodes_list (e :: rest) ++ nodes_list exps).reverse ++ ([st.mem.next] ++ st.mem.freed)).Perm
    (nodes_list exps ++ nodes_list (e :: rest) ++ new st (st.made 1 []) ++ st.mem.freed)
  rw [hnew, List.append_assoc _ [st.mem.next]]
  exact ((List.reverse_perm _).trans List.perm_append_comm).append_right _

/-- The expressions of the declarations are freed with the list. -/
theorem declared_owned {nodes : List Nat} (hlength : names.length ≤ exps.length)
    (howned : st.mem.Owned (nodes ++ nodes_list exps)) :
    (st.made (1 + names.length) []).mem.Owned ((Stmt.LIST st.mem.next false
      (declarations none false (st.mem.next + 1)
        (initialised exps 0 (names.map ident)))).nodes ++ nodes) := by
  refine (howned.allocated (1 + names.length) []).subperm ?_
  refine List.subperm_ext_iff.mpr fun a _ => ?_
  have hnodes := List.perm_iff_count.mp (nodes_declared hlength st.mem.next) a
  have hexps := congrArg (List.count a) (nodes_list_append (exps.take names.length)
    (exps.drop names.length))
  rw [List.take_append_drop] at hexps
  simp only [List.count_append] at hnodes hexps ⊢
  omega

/-- Otherwise the first expression is freed with the list, and then again. -/
theorem typeless_later {p : Head × CString} {e : Expr} {rest : List Expr} (he : e.isIdent = false)
    (hids : ids = (p :: names).map named ++ e :: rest) (hsame : ids.length = exps.length)
    (howned : st.mem.Owned (nodes_list ids ++ nodes_list exps)) :
    Parser_Do_Typeless_Variables ids exps st = .error .bounds := by
  have hlength : (p :: names).length ≤ exps.length := by
    rw [← hsame, hids, List.length_append, List.length_map]
    omega
  have hmany : ids.length ≠ 1 := by
    rw [hids, List.length_append, List.length_map, List.length_cons, List.length_cons]
    omega
  have hlive := declared_owned hlength howned
  have hnodes := nodes_declared hlength st.mem.next
  have hrun := (typeless_bad he hids hsame hmany).trans (free_list_both hlive.left)
  rw [hrun]
  obtain ⟨exp, exps, rfl⟩ := List.exists_cons_of_length_pos (Nat.lt_of_lt_of_le
    (Nat.succ_pos names.length) hlength)
  refine free_both_freed (hlive.release _) (List.mem_append_left _ (List.mem_reverse.mpr ?_))
  exact hnodes.symm.subset (List.mem_append_left _ (List.mem_append_left _ (head_mem exp)))

/-- Several left sides of one expression. -/
theorem typeless_copies {exp : Expr} (hmany : 1 < ids.length) :
    Parser_Do_Typeless_Variables ids [exp] st =
      match (typeless_ids ids st).1 with
      | none => free_both ids [exp] (typeless_ids ids st).2
      | some _ids => (typeless_ids ids st).2.free (free_exprlist ids) >>= fun st' =>
        .ok (some (.VARLIST st'.mem.next _ids none exp false), st'.made 1 []) := by
  have hcount : __validate_count ids.length [exp].length ≠ false := by
    rw [Ne, validate_count_iff, List.length_singleton]
    omega
  have hsame : ids.length ≠ [exp].length := Nat.ne_of_gt hmany
  unfold Parser_Do_Typeless_Variables
  dsimp only [__Stmt_From_VarListDecl]
  rw [if_neg hcount, if_neg hsame, assert_of ⟨hmany, rfl⟩, ok_bind]
  simp only [State.Malloc_eq]
  rfl

/-- The identifiers are copied, and then freed. -/
theorem typeless_several {exp : Expr} (hmany : 1 < names.length)
    (howned : st.mem.Owned (nodes_list (names.map named) ++ nodes_list [exp])) :
    Parser_Do_Typeless_Variables (names.map named) [exp] st =
      .ok (some (.VARLIST st.mem.next (names.map ident) none exp false),
        (st.made 1 []).released (nodes_list (names.map named)) (drops_list (names.map named))) := by
  rw [typeless_copies (by rwa [List.length_map]), typeless_ids_eq]
  dsimp only
  rw [State.free_ok (free_exprlist_frees (names.map named)) howned.left, ok_bind,
    State.released_made]
  rfl

theorem typeless_list {exp : Expr} (hmany : 1 < ids.length)
    (howned : st.mem.Owned (nodes_list ids ++ nodes_list [exp])) :
    Owns (nodes_list [exp]) (nodes_list ids) st (Parser_Do_Typeless_Variables ids [exp] st) := by
  obtain ⟨names, rfl⟩ | ⟨names, e, rest, rfl, he⟩ := split_idents ids
  · rw [List.length_map] at hmany
    rw [typeless_several hmany howned]
    refine owns_freed ?_
    rw [nodes_list, nodes_list, List.append_nil]
    exact .refl _
  · rw [typeless_copies hmany, typeless_ids_bad names he rest st]
    exact owns_free_both howned List.perm_append_comm _ _

/-- Left and right do not match. -/
theorem typeless_unmatched {e : Expr} {rest : List Expr}
    (hcount : __validate_count (e :: rest).length exps.length = false) :
    Parser_Do_Typeless_Variables (e :: rest) exps st = free_both (e :: rest) exps
      (st.Syntax_Error e.head.pos "left and expr are not matched") := by
  unfold Parser_Do_Typeless_Variables
  dsimp only
  rw [if_pos hcount, List.getElem?_cons_zero, deref, ok_bind]

theorem named_isIdent : ∀ e ∈ names.map named, e.isIdent = true := by
  intro e he
  obtain ⟨p, _, rfl⟩ := List.mem_map.mp he
  rfl

theorem typeless_same_iff (hsame : ids.length = exps.length)
    (howned : st.mem.Owned (nodes_list ids ++ nodes_list exps)) :
    Owns (nodes_list exps) (nodes_list ids) st (Parser_Do_Typeless_Variables ids exps st) ↔
      ((∃ e ∈ ids.head?, e.isIdent = true) → ∀ e ∈ ids, e.isIdent = true) := by
  by_cases hone : ids.length = 1
  · obtain ⟨e, rfl⟩ := List.length_eq_one_iff.mp hone
    obtain ⟨exp, rfl⟩ := List.length_eq_one_iff.mp (hsame.symm.trans hone)
    refine iff_of_true (typeless_one howned) ?_
    rintro ⟨e', he', hident⟩
    cases he'
    exact List.forall_mem_singleton.mpr hident
  · obtain ⟨names, rfl⟩ | ⟨names, e, rest, hids, he⟩ := split_idents ids
    · rw [List.length_map] at hsame hone
      exact iff_of_true (typeless_all hsame hone howned) fun _ => named_isIdent
    · cases names with
      | nil =>
        subst hids
        refine iff_of_true (typeless_first he hsame hone howned) ?_
        rintro ⟨e', he', hident⟩
        cases he'
        exact absurd (he.symm.trans hident) Bool.false_ne_true
      | cons p names =>
        rw [typeless_later he hids hsame howned]
        refine iff_of_false owns_fails fun h => ?_
        have hall := h ⟨named p, by rw [hids]; rfl, rfl⟩ e (by rw [hids]; simp)
        exact Bool.false_ne_true (he.symm.trans hall)

/-- Left sides without a type own their expressions unless a later one is the
first that is no identifier. -/
theorem typeless_owns_iff (howned : st.mem.Owned (nodes_list ids ++ nodes_list exps)) :
    Owns (nodes_list exps) (nodes_list ids) st (Parser_Do_Typeless_Variables ids exps st) ↔
      (ids = [] ↔ exps = []) ∧ (ids.length = exps.length →
        (∃ e ∈ ids.head?, e.isIdent = true) → ∀ e ∈ ids, e.isIdent = true) := by
  by_cases hsame : ids.length = exps.length
  · have hnil : ids = [] ↔ exps = [] := by
      rw [← List.length_eq_zero_iff, hsame, List.length_eq_zero_iff]
    rw [typeless_same_iff hsame howned]
    exact ⟨fun h => ⟨hnil, fun _ => h⟩, fun h => h.2 hsame⟩
  · cases ids with
    | nil =>
      cases exps with
      | nil => exact absurd rfl hsame
      | cons exp exps => exact iff_of_false owns_fails fun h => nomatch h.1.mp rfl
    | cons e rest =>
      cases exps with
      | nil => exact iff_of_false owns_fails fun h => nomatch h.1.mpr rfl
      | cons exp exps =>
        refine iff_of_true ?_ ⟨iff_of_false nofun nofun, fun h => absurd h hsame⟩
        cases hcount : __validate_count (e :: rest).length (exp :: exps).length with
        | false =>
          rw [typeless_unmatched hcount]
          exact owns_free_both howned List.perm_append_comm _ _
        | true =>
          have hmatch := mt (validate_count_iff _ _).mpr (by rw [hcount]; exact nofun)
          simp only [List.length_cons] at hmatch hsame
          obtain rfl : exps = [] := List.length_eq_zero_iff.mp (by omega)
          rw [List.length_nil] at hsame
          exact typeless_list (by rw [List.length_cons]; omega) howned

end typeless

section assignments

variable {st : State} {left right : List Expr}

/-- As many expressions as left sides. -/
theorem assign_same (hsame : left.length = right.length) (hmany : left.length ≠ 1) :
    Parser_Do_Assignments left right st =
      assign_stmts right 0 left [] (st.made 1 []) >>= fun r =>
        match r.1 with
        | none => free_both left right r.2
        | some vec => .ok (some (.LIST st.mem.next false vec), r.2) := by
  have hcount : __validate_count left.length right.length ≠ false := by
    rw [Ne, validate_count_iff]
    omega
  unfold Parser_Do_Assignments
  dsimp only
  rw [if_neg hcount, if_pos hsame, if_neg hmany]
  exact st.Malloc_eq ▸ rfl

/-- One left side that can be stored. -/
theorem assign_single {lexp rexp : Expr} (hstored : Expr_Maybe_Stored lexp = true) :
    Parser_Do_Assignments [lexp] [rexp] st =
      .ok (some (.ASSIGN st.mem.next .OP_ASSIGN lexp rexp), st.made 1 []) := by
  change (if Expr_Maybe_Stored lexp = false then _ else _) = _
  rw [if_neg (by rw [hstored]; exact nofun)]
  change Except.ok (some (Stmt.ASSIGN st.Malloc.1 .OP_ASSIGN lexp rexp), st.Malloc.2) = _
  rw [st.Malloc_eq]

theorem assign_not_stored {lexp rexp : Expr} (hstored : Expr_Maybe_Stored lexp = false) :
    Parser_Do_Assignments [lexp] [rexp] st =
      free_both [lexp] [rexp] (st.Syntax_Error lexp.head.pos "expr is not left expr") := by
  change (if Expr_Maybe_Stored lexp = false then _ else _) = _
  rw [if_pos hstored]

theorem assign_one {lexp rexp : Expr}
    (howned : st.mem.Owned (nodes_list [lexp] ++ nodes_list [rexp])) :
    Owns (nodes_list [lexp] ++ nodes_list [rexp]) [] st
      (Parser_Do_Assignments [lexp] [rexp] st) := by
  cases hstored : Expr_Maybe_Stored lexp with
  | false =>
    rw [assign_not_stored hstored]
    exact owns_free_both howned (List.append_nil _ ▸ .refl _) _ _
  | true =>
    rw [assign_single hstored]
    refine owns_made ?_
    rw [nodes_list, nodes_list, nodes_list, nodes_list, List.append_nil, List.append_nil,
      List.append_assoc]
    exact .refl _

/-- As many expressions that can be stored are assigned one by one. -/
theorem assign_pairs (hstored : ∀ e ∈ left, Expr_Maybe_Stored e = true)
    (hsame : left.length = right.length) (hmany : left.length ≠ 1) :
    Parser_Do_Assignments left right st =
      .ok (some (.LIST st.mem.next false (assignments (st.mem.next + 1) (left.zip right))),
        st.made (1 + left.length) []) := by
  have hstmts := assign_stmts_append [] [] (st.made 1 []) hstored
    (by omega : 0 + left.length ≤ right.length)
  rw [List.append_nil, List.nil_append, State.made_made, assign_stmts] at hstmts
  rw [assign_same hsame hmany, hstmts, ok_bind]
  rfl

/-- Otherwise the list and the assignments that it holds are left. -/
theorem assign_unstored {stored rest : List Expr} {e : Expr}
    (hleft : left = stored ++ e :: rest) (hstored : ∀ e ∈ stored, Expr_Maybe_Stored e = true)
    (he : Expr_Maybe_Stored e = false) (hsame : left.length = right.length)
    (hmany : left.length ≠ 1) : Parser_Do_Assignments left right st = free_both left right
      ((st.made (1 + stored.length) []).Syntax_Error e.head.pos "expr is not left expr") := by
  have hlength : 0 + stored.length ≤ right.length := by
    rw [← hsame, hleft, List.length_append]
    omega
  have hstmts := assign_stmts_append (e :: rest) [] (st.made 1 []) hstored hlength
  rw [State.made_made, assign_stmts, if_pos he, ← hleft, List.append_nil] at hstmts
  rw [assign_same hsame hmany, hstmts, ok_bind]

theorem assign_leaks {stored rest : List Expr} {e : Expr}
    (hleft : left = stored ++ e :: rest) (hstored : ∀ e ∈ stored, Expr_Maybe_Stored e = true)
    (he : Expr_Maybe_Stored e = false) (hsame : left.length = right.length)
    (hmany : left.length ≠ 1)
    (howned : st.mem.Owned (nodes_list left ++ nodes_list right)) :
    ¬ Owns (nodes_list left ++ nodes_list right) [] st (Parser_Do_Assignments left right st) := by
  have hboth := @free_both_ok ((st.made (1 + stored.length) []).Syntax_Error e.head.pos
    "expr is not left expr") left right (howned.made _ _)
  rw [assign_unstored hleft hstored he hsame hmany, hboth]
  rintro (⟨_, _, hrun, _⟩ | ⟨st', _, hrun, _, hfreed⟩)
  · cases hrun
  · cases hrun
    have hnew := new_made st (1 + stored.length) []
    have hlength := hfreed.length_eq
    change ((nodes_list left ++ nodes_list right).reverse ++ st.mem.freed).length =
      (nodes_list left ++ nodes_list right ++ [] ++
        new st (st.made (1 + stored.length) []) ++ st.mem.freed).length at hlength
    rw [hnew] at hlength
    simp only [List.length_append, List.length_reverse, List.length_range', List.length_nil]
      at hlength
    omega

/-- Several left sides of one expression. -/
theorem assign_copies {exp : Expr} (hmany : 1 < left.length) :
    Parser_Do_Assignments left [exp] st =
      match left.find? fun lexp => Expr_Maybe_Stored lexp = false with
      | some lexp => free_both left [exp] (st.Syntax_Error lexp.head.pos "expr is not left expr")
      | none => .ok (some (.ASSIGNLIST st.mem.next left exp), st.made 1 []) := by
  have hcount : __validate_count left.length [exp].length ≠ false := by
    rw [Ne, validate_count_iff, List.length_singleton]
    omega
  have hsame : left.length ≠ [exp].length := Nat.ne_of_gt hmany
  unfold Parser_Do_Assignments
  dsimp only [Stmt_From_AssignList]
  rw [if_neg hcount, if_neg hsame, assert_of ⟨hmany, rfl⟩, ok_bind, st.Malloc_eq]
  rfl

theorem assign_list {exp : Expr} (hmany : 1 < left.length)
    (howned : st.mem.Owned (nodes_list left ++ nodes_list [exp])) :
    Owns (nodes_list left ++ nodes_list [exp]) [] st (Parser_Do_Assignments left [exp] st) := by
  rw [assign_copies hmany]
  cases left.find? fun lexp => Expr_Maybe_Stored lexp = false with
  | some lexp => exact owns_free_both howned (List.append_nil _ ▸ .refl _) _ _
  | none =>
    refine owns_made ?_
    rw [nodes_list, nodes_list, List.append_nil, List.append_assoc]
    exact .refl _

theorem assign_unmatched {e : Expr} {rest : List Expr}
    (hcount : __validate_count left.length (e :: rest).length = false) :
    Parser_Do_Assignments left (e :: rest) st = free_both left (e :: rest)
      (st.Syntax_Error e.head.pos "left and right are not matched") := by
  unfold Parser_Do_Assignments
  dsimp only
  rw [if_pos hcount, List.getElem?_cons_zero, deref, ok_bind]

/-- Assignments own their expressions unless there are several and one has a left
side that cannot be stored. -/
theorem assign_owns_iff (howned : st.mem.Owned (nodes_list left ++ nodes_list right)) :
    Owns (nodes_list left ++ nodes_list right) [] st (Parser_Do_Assignments left right st) ↔
      (right = [] → left = []) ∧ (left.length = right.length → 1 < left.length →
        ∀ e ∈ left, Expr_Maybe_Stored e = true) := by
  by_cases hsame : left.length = right.length
  · have hnil : right = [] → left = [] := fun hright => by
      rw [hright] at hsame
      exact List.length_eq_zero_iff.mp hsame
    by_cases hone : left.length = 1
    · obtain ⟨lexp, rfl⟩ := List.length_eq_one_iff.mp hone
      obtain ⟨rexp, rfl⟩ := List.length_eq_one_iff.mp (hsame.symm.trans hone)
      exact iff_of_true (assign_one howned) ⟨hnil, fun _ hmany => absurd hmany (Nat.lt_irrefl 1)⟩
    · obtain hall | ⟨stored, e, rest, hleft, hstored, he⟩ := split_stored left
      · refine iff_of_true ?_ ⟨hnil, fun _ _ => hall⟩
        rw [assign_pairs hall hsame hone]
        exact owns_made (nodes_list_stmt (nodes_assignments hsame (st.mem.next + 1)))
      · refine iff_of_false (assign_leaks hleft hstored he hsame hone howned) fun h => ?_
        have hmem : e ∈ left := by rw [hleft]; simp
        have hpos := List.length_pos_of_mem hmem
        exact Bool.false_ne_true (he.symm.trans (h.2 hsame (by omega) e hmem))
  · cases right with
    | nil =>
      refine iff_of_false ?_ fun h => hsame (by rw [h.1 rfl])
      cases left with
      | nil => exact absurd rfl hsame
      | cons lexp left => exact owns_fails
    | cons e rest =>
      refine iff_of_true ?_ ⟨nofun, fun h => absurd h hsame⟩
      cases hcount : __validate_count left.length (e :: rest).length with
      | false =>
        rw [assign_unmatched hcount]
        exact owns_free_both howned (List.append_nil _ ▸ .refl _) _ _
      | true =>
        have hmatch := mt (validate_count_iff _ _).mpr (by rw [hcount]; exact nofun)
        rw [List.length_cons] at hmatch hsame
        obtain rfl : rest = [] := List.length_eq_zero_iff.mp (by omega)
        rw [List.length_nil] at hsame hmatch
        exact assign_list (by omega) howned

end assignments

/-- Which builders own what they are given, on all runs. -/
theorem owns_iff {st : State} {left exps : List Expr} (ids : List Ident) (type : Option TypeDesc)
    (konst : Bool) (howned : st.mem.Owned (nodes_list left ++ nodes_list exps)) :
    Owns (nodes_list exps) [] st (__Parser_Do_Variables ids type exps konst st) ∧
    (Owns (nodes_list exps) (nodes_list left) st (Parser_Do_Typeless_Variables left exps st) ↔
      (left = [] ↔ exps = []) ∧ (left.length = exps.length →
        (∃ e ∈ left.head?, e.isIdent = true) → ∀ e ∈ left, e.isIdent = true)) ∧
    (Owns (nodes_list left ++ nodes_list exps) [] st (Parser_Do_Assignments left exps st) ↔
      (exps = [] → left = []) ∧ (left.length = exps.length → 1 < left.length →
        ∀ e ∈ left, Expr_Maybe_Stored e = true)) := by
  have hright : st.mem.Owned (nodes_list exps) := by
    refine howned.subperm ?_
    exact (List.sublist_append_right _ _).subperm
  exact ⟨variables_owns ids type konst hright, typeless_owns_iff howned, assign_owns_iff howned⟩

section instances

def node (addr : Nat) : Head := ⟨addr, ⟨1, 1⟩, none⟩

/-- The expressions `a`, `b.a`, `1` and `2`. -/
def exp_a : Expr := .ID (node 0) name_a.name

def exp_attribute : Expr := .ATTRIBUTE (node 2) name_a (.ID (node 1) name_b.name)

def exp_one : Expr := .CONST (node 3) (.BASE_INT 1)

def exp_two : Expr := .CONST (node 4) (.BASE_INT 2)

/-- A state with these nodes. -/
def some_nodes : State := ⟨⟨5, [], []⟩, []⟩

theorem some_nodes_owned (nodes : List Nat) (hnodup : nodes.Nodup) (hold : ∀ a ∈ nodes, a < 5) :
    some_nodes.mem.Owned nodes where
  nodup := hnodup
  live _ _ := List.not_mem_nil
  old := hold
  freed_old := List.forall_mem_nil _

/-- The assignment `a, b.a = 1, 2`. -/
theorem owns_iff_pair :
    Owns [0, 1, 2, 3, 4] [] some_nodes
      (Parser_Do_Assignments [exp_a, exp_attribute] [exp_one, exp_two] some_nodes) := by
  have howned := some_nodes_owned [0, 1, 2, 3, 4] (by decide) (by decide)
  have hboth := @owns_iff some_nodes [exp_a, exp_attribute] [exp_one, exp_two] [] none false howned
  refine hboth.2.2.mpr ⟨nofun, fun _ _ => ?_⟩
  exact List.forall_mem_cons.mpr ⟨rfl, List.forall_mem_singleton.mpr rfl⟩

/-- In `a, b.a := 1, 2` the first expression is freed twice, and in `a, 1 = b, 2`
the list is not freed. -/
theorem not_owns :
    ¬ Owns [3, 4] [0, 1, 2] some_nodes
      (Parser_Do_Typeless_Variables [exp_a, exp_attribute] [exp_one, exp_two] some_nodes) ∧
    ¬ Owns [0, 3, 1, 4] [] some_nodes
      (Parser_Do_Assignments [exp_a, .CONST (node 3) (.BASE_INT 1)]
        [.ID (node 1) name_b.name, exp_two] some_nodes) := by
  constructor
  · have hrun : Parser_Do_Typeless_Variables [exp_a, exp_attribute] [exp_one, exp_two] some_nodes =
        .error .bounds := rfl
    rw [hrun]
    exact owns_fails
  · rintro (⟨_, _, hrun, _⟩ | ⟨_, _, hrun, _, hfreed⟩)
    · cases hrun
    · cases hrun
      exact absurd hfreed.length_eq (by decide)

end instances

end koala.ast
