import Koala.Ast.Held
import Koala.Ast.Once

open koala.parser koala.typedesc

namespace koala.ast

set_option linter.style.nameCheck false

section drops

variable {exps : List Expr} {type : Option TypeDesc} {konst : Bool}

theorem drops_declarations (addr : Nat) (pairs : List (Ident × Option Expr)) :
    (drops_stmts (declarations type konst addr pairs)).Perm
      (((pairs.map Prod.fst).flatMap fun _ => drop type) ++
        pairs.flatMap fun p => drops_opt p.2) := by
  induction pairs generalizing addr with
  | nil => exact .refl _
  | cons p pairs ih =>
    obtain ⟨id, exp⟩ := p
    rw [declarations, drops_stmts, Stmt.drops, List.map_cons, List.flatMap_cons, List.flatMap_cons]
    refine List.perm_iff_count.mpr fun t => ?_
    have hcount := List.perm_iff_count.mp (ih (addr + 1)) t
    simp only [List.count_append] at hcount ⊢
    omega

theorem drops_zip {α : Type} {ids : List α} (hlength : ids.length ≤ exps.length) :
    ((ids.zip (exps.map some)).flatMap fun p => drops_opt p.2) =
      drops_list (exps.take ids.length) := by
  induction ids generalizing exps with
  | nil => rfl
  | cons id ids ih =>
    cases exps with
    | nil => cases hlength
    | cons exp exps =>
      have hrest := ih (Nat.le_of_succ_le_succ hlength)
      rw [List.map_cons, List.zip_cons_cons, List.flatMap_cons, hrest]
      rfl

theorem drops_assignments {left right : List Expr} (hlength : left.length = right.length)
    (addr : Nat) : (drops_stmts (assignments addr (left.zip right))).Perm
      (drops_list left ++ drops_list right) := by
  induction left generalizing right addr with
  | nil =>
    obtain rfl := List.length_eq_zero_iff.mp hlength.symm
    exact .refl _
  | cons lexp left ih =>
    cases right with
    | nil => cases hlength
    | cons rexp right =>
      rw [List.zip_cons_cons, assignments, drops_stmts, Stmt.drops, drops_list, drops_list]
      refine List.perm_iff_count.mpr fun t => ?_
      have hcount := List.perm_iff_count.mp (ih (Nat.succ.inj hlength) (addr + 1)) t
      simp only [List.count_append] at hcount ⊢
      omega

end drops

section holds

variable {s₀ s : Descs} {st : State} {held : List TypeDesc} {nodes : List Nat}

theorem Holds.made (h : Holds s₀ st s held nodes) (n : Nat) :
    Holds s₀ (st.made n []) s held (List.range' st.mem.next n ++ nodes) where
  run := by
    have hrun := h.run
    rw [← List.append_nil st.mem.changes] at hrun
    exact hrun
  grows := h.grows
  counted := h.counted
  owned := h.owned.allocated n []

/-- Nodes are left. -/
theorem Holds.left {nodes' : List Nat} (h : Holds s₀ st s held (nodes' ++ nodes)) :
    Holds s₀ st s held nodes where
  run := h.run
  grows := h.grows
  counted := h.counted
  owned := h.owned.subperm (List.sublist_append_right _ _).subperm

/-- A reference to one type is taken for each name. -/
theorem Holds.takes {α : Type} (h : Holds s₀ st s held nodes) (names : List α)
    {type : Option TypeDesc} (htype : ∀ t ∈ type, t ∈ s.table) :
    ∃ s', Holds s₀ (st.made 0 (names.flatMap fun _ => take type)) s'
      ((names.flatMap fun _ => drop type) ++ held) nodes ∧ Grows s s' := by
  induction names generalizing st s held with
  | nil => exact ⟨s, h.made 0, .refl s⟩
  | cons a names ih =>
    obtain ⟨s₁, h₁, hgrows₁⟩ := h.incref htype
    obtain ⟨s₂, h₂, hgrows₂⟩ := ih h₁ fun t ht => hgrows₁.mem (htype t ht)
    refine ⟨s₂, ?_, hgrows₁.trans hgrows₂⟩
    have hst : (st.TYPE_INCREF type).made 0 (names.flatMap fun _ => take type) =
        st.made 0 ((a :: names).flatMap fun _ => take type) := by
      rw [List.flatMap_cons, ← st.made_made 0 0]
      rfl
    rw [← hst]
    refine h₂.perm ?_ (.refl _)
    rw [List.flatMap_cons, List.append_assoc]
    exact List.perm_append_comm_assoc _ _ _

/-- Nodes are allocated, and references to one type are taken. -/
theorem Holds.declared {α : Type} (h : Holds s₀ st s held nodes) (n : Nat) (names : List α)
    {type : Option TypeDesc} (htype : ∀ t ∈ type, t ∈ s.table) :
    ∃ s', Holds s₀ (st.made n (names.flatMap fun _ => take type)) s'
      ((names.flatMap fun _ => drop type) ++ held) (List.range' st.mem.next n ++ nodes) ∧
        Grows s s' := by
  obtain ⟨s', h', hgrows⟩ := (h.made n).takes names htype
  rw [State.made_made] at h'
  exact ⟨s', h', hgrows⟩

theorem Holds.declared_one (h : Holds s₀ st s held nodes) {type : Option TypeDesc}
    (htype : ∀ t ∈ type, t ∈ s.table) : ∃ s', Holds s₀ (st.made 1 (take type)) s'
      (drop type ++ held) (st.mem.next :: nodes) ∧ Grows s s' := by
  obtain ⟨s', h', hgrows⟩ := h.declared 1 [()] htype
  rw [List.flatMap_singleton, List.flatMap_singleton] at h'
  exact ⟨s', h', hgrows⟩

/-- What a builder returns holds the references and nodes that are owned. -/
def Keeps (s₀ s : Descs) (held : List TypeDesc) (nodes : List Nat)
    (r : Res (Option Stmt × State)) : Prop :=
  ∃ stmt st' s', r = .ok (stmt, st') ∧ Holds s₀ st' s' (drops_stmts stmt.toList ++ held)
    (nodes_stmts stmt.toList ++ nodes) ∧ Grows s s'

theorem Holds.free_both {left right : List Expr} {dropped : List TypeDesc} {freed : List Nat}
    (h : Holds s₀ st s (dropped ++ held) (freed ++ nodes))
    (hdropped : dropped.Perm (drops_list left ++ drops_list right))
    (hfreed : freed.Perm (nodes_list left ++ nodes_list right)) (pos : Position) (fmt : String) :
    Keeps s₀ s held nodes (free_both left right (st.Syntax_Error pos fmt)) := by
  have h' := (h.error pos fmt).perm (hdropped.append_right held) (hfreed.append_right nodes)
  obtain ⟨s', hs', hgrows⟩ := h'.released
  exact ⟨none, _, s', free_both_ok h'.owned.left, hs', hgrows⟩

/-- A statement that is made of what is owned. -/
theorem Holds.keeps {st' : State} {s' : Descs} {stmt : Stmt} {refs : List TypeDesc}
    {owned : List Nat} (h : Holds s₀ st' s' (refs ++ held) (owned ++ nodes)) (hgrows : Grows s s')
    (hrefs : refs.Perm stmt.drops) (howned : owned.Perm stmt.nodes) :
    Keeps s₀ s held nodes (.ok (some stmt, st')) := by
  refine ⟨some stmt, st', s', rfl, h.perm ?_ ?_, hgrows⟩
  · rw [Option.toList_some, drops_stmts, drops_stmts, List.append_nil]
    exact hrefs.append_right held
  · rw [Option.toList_some, nodes_stmts, nodes_stmts, List.append_nil]
    exact howned.append_right nodes

variable {exps : List Expr} {ids : List Ident} {type : Option TypeDesc} {konst : Bool}

/-- Declarations with a type or a keyword keep what their expressions hold. -/
theorem Holds.variables (h : Holds s₀ st s (drops_list exps ++ held) (nodes_list exps ++ nodes))
    (htype : ∀ t ∈ type, t ∈ s.table) :
    Keeps s₀ s held nodes (__Parser_Do_Variables ids type exps konst st) := by
  cases hcount : __validate_count ids.length exps.length with
  | false =>
    obtain ⟨pos, hrun⟩ := @variables_mismatch _ st ids exps type konst hcount h.owned.left
    obtain ⟨s', h', hgrows⟩ := (h.error pos "left and right are not matched").released
    exact ⟨none, _, s', hrun, h', hgrows⟩
  | true =>
    have hmatch := mt (validate_count_iff _ _).mpr fun hfalse =>
          Bool.false_ne_true (hfalse.symm.trans hcount)
    by_cases hsame : ids.length = exps.length
    · by_cases hone : ids.length = 1
      · obtain ⟨id, rfl⟩ := List.length_eq_one_iff.mp hone
        obtain ⟨exp, rfl⟩ := List.length_eq_one_iff.mp (hsame.symm.trans hone)
        obtain ⟨s', h', hgrows⟩ := h.declared_one htype
        rw [← List.append_assoc, ← List.cons_append] at h'
        refine h'.keeps hgrows ?_ ?_
        · rw [drops_list, drops_list, List.append_nil]
          exact .refl _
        · rw [nodes_list, nodes_list, List.append_nil]
          exact (List.perm_append_singleton _ _).symm
      · obtain ⟨s', h', hgrows⟩ := h.declared (1 + ids.length) ids htype
        rw [← List.append_assoc, ← List.append_assoc] at h'
        rw [variables_same hsame hone]
        refine h'.keeps hgrows ?_ ?_
        · have hdrops := @drops_declarations type konst (st.mem.next + 1) (ids.zip (exps.map some))
          rw [List.map_fst_zip (by rw [List.length_map, hsame]), drops_zip hsame.le, hsame,
            List.take_length] at hdrops
          exact hdrops.symm
        · have hvec := @nodes_declarations type konst (st.mem.next + 1) (ids.zip (exps.map some))
          rw [nodes_zip hsame.le, hsame, List.take_length, List.length_zip, List.length_map, hsame,
            Nat.min_self] at hvec
          rw [hsame]
          exact List.perm_append_comm.trans (nodes_list_stmt hvec).symm
    · by_cases hone : exps.length = 1
      · obtain ⟨exp, rfl⟩ := List.length_eq_one_iff.mp hone
        obtain ⟨s', h', hgrows⟩ := h.declared_one htype
        rw [← List.append_assoc, ← List.cons_append] at h'
        rw [variables_several (by rw [List.length_singleton] at *; omega)]
        refine h'.keeps hgrows ?_ ?_
        · rw [drops_list, drops_list, List.append_nil]
          exact .refl _
        · rw [nodes_list, nodes_list, List.append_nil]
          exact (List.perm_append_singleton _ _).symm
      · obtain rfl : exps = [] := List.length_eq_zero_iff.mp (by omega)
        by_cases hid : ids.length = 1
        · obtain ⟨id, rfl⟩ := List.length_eq_one_iff.mp hid
          obtain ⟨s', h', hgrows⟩ := h.declared_one htype
          rw [← List.singleton_append] at h'
          refine h'.keeps hgrows ?_ ?_
          · exact List.Perm.of_eq (List.append_nil _).symm
          · exact .refl _
        · obtain ⟨s', h', hgrows⟩ := h.declared (1 + ids.length) ids htype
          rw [variables_none (by rw [List.length_nil] at *; omega)]
          refine h'.keeps hgrows ?_ ?_
          · have hdrops := @drops_declarations type konst (st.mem.next + 1)
              (ids.map fun id => (id, none))
            have hnil : (ids.flatMap fun id => drops_opt (id, (none : Option Expr)).2) = [] :=
              List.flatMap_eq_nil_iff.mpr fun _ _ => rfl
            rw [List.map_map, List.flatMap_map, List.flatMap_map, hnil, List.append_nil] at hdrops
            exact hdrops.symm
          · have hvec := @nodes_declarations type konst (st.mem.next + 1)
              (ids.map fun id => (id, none))
            have hnil : (ids.flatMap fun id => nodes_opt (id, (none : Option Expr)).2) = [] :=
              List.flatMap_eq_nil_iff.mpr fun _ _ => rfl
            rw [List.flatMap_map, List.length_map, hnil] at hvec
            exact (nodes_list_stmt hvec).symm

section typeless

variable {left : List Expr}

/-- Nodes are allocated, and the left sides are freed. -/
theorem Holds.idents (h : Holds s₀ st s (drops_list left ++ held) (nodes_list left ++ nodes))
    (n : Nat) : ∃ s', Holds s₀ ((st.made n []).released (nodes_list left) (drops_list left)) s'
      held (List.range' st.mem.next n ++ nodes) ∧ Grows s s' :=
  ((h.made n).perm (.refl _) (List.perm_append_comm_assoc _ _ _)).released

/-- An error that is found before anything is allocated. -/
theorem Holds.rejects {right : List Expr}
    (h : Holds s₀ st s (drops_list left ++ (drops_list right ++ held))
      (nodes_list left ++ (nodes_list right ++ nodes))) (pos : Position) (fmt : String) :
    Keeps s₀ s held nodes (ast.free_both left right (st.Syntax_Error pos fmt)) := by
  rw [← List.append_assoc, ← List.append_assoc] at h
  exact h.free_both (.refl _) (.refl _) pos fmt

/-- As many identifiers as expressions, or none. -/
theorem Holds.typeless_same {ids : List Expr} (hsame : ids.length = exps.length)
    (h : Holds s₀ st s (drops_list ids ++ (drops_list exps ++ held))
      (nodes_list ids ++ (nodes_list exps ++ nodes)))
    (hident : (∃ e ∈ ids.head?, e.isIdent = true) → ∀ e ∈ ids, e.isIdent = true) :
    Keeps s₀ s held nodes (Parser_Do_Typeless_Variables ids exps st) := by
  have howned : st.mem.Owned (nodes_list ids ++ nodes_list exps) := by
    have howned := h.owned
    rw [← List.append_assoc] at howned
    exact howned.left
  by_cases hone : ids.length = 1
  · obtain ⟨e, rfl⟩ := List.length_eq_one_iff.mp hone
    obtain ⟨exp, rfl⟩ := List.length_eq_one_iff.mp (hsame.symm.trans hone)
    cases he : e.isIdent with
    | false =>
      rw [typeless_no_ident he]
      exact h.rejects _ _
    | true =>
      obtain ⟨p, rfl⟩ := e.named_of_isIdent he
      obtain ⟨s', h', hgrows⟩ := h.idents 1
      rw [typeless_single p howned]
      rw [← List.append_assoc] at h'
      refine h'.keeps hgrows ?_ ?_
      · rw [drops_list, drops_list, List.append_nil]
        exact .refl _
      · rw [nodes_list, nodes_list, List.append_nil]
        exact List.perm_append_comm
  · obtain ⟨names, rfl⟩ | ⟨names, e, rest, hids, he⟩ := split_idents ids
    · rw [List.length_map] at hsame hone
      obtain ⟨s', h', hgrows⟩ := h.idents (1 + names.length)
      rw [typeless_pairs hsame hone howned]
      rw [← List.append_assoc] at h'
      refine h'.keeps hgrows ?_ ?_
      · have hlength : (names.map ident).length = exps.length := by rw [List.length_map, hsame]
        have hdrops := @drops_declarations none false (st.mem.next + 1)
          ((names.map ident).zip (exps.map some))
        have hnone : ((names.map ident).flatMap fun _ => drop none) = [] :=
          List.flatMap_eq_nil_iff.mpr fun _ _ => rfl
        rw [List.map_fst_zip (by rw [hlength, List.length_map]), hnone, drops_zip hlength.le,
          hlength, List.take_length, List.nil_append] at hdrops
        rw [Stmt.drops, initialised_zip (by omega), List.drop_zero]
        exact hdrops.symm
      · have hnodes := nodes_declared hsame.le st.mem.next
        rw [hsame, List.take_length, ← hsame] at hnodes
        exact List.perm_append_comm.trans hnodes.symm
    · cases names with
      | cons p names =>
        have hall := hident ⟨named p, by rw [hids]; rfl, rfl⟩ e (by rw [hids]; simp)
        cases he.symm.trans hall
      | nil =>
        subst hids
        rw [← List.append_assoc, ← List.append_assoc] at h
        have h₁ := (h.made 1).error e.head.pos "needs an identifier"
        rw [List.range'_one] at h₁
        obtain ⟨s₂, h₂, hgrows₂⟩ := @Holds.released s₀ s _ _ [st.mem.next] _ [] h₁
        obtain ⟨s₃, h₃, hgrows₃⟩ := h₂.released
        exact ⟨none, _, s₃, typeless_empty he hsame hone howned, h₃, hgrows₂.trans hgrows₃⟩

/-- Several left sides of one expression. -/
theorem Holds.typeless_list {ids : List Expr} {exp : Expr} (hmany : 1 < ids.length)
    (h : Holds s₀ st s (drops_list ids ++ (drops_list [exp] ++ held))
      (nodes_list ids ++ (nodes_list [exp] ++ nodes))) :
    Keeps s₀ s held nodes (Parser_Do_Typeless_Variables ids [exp] st) := by
  obtain ⟨names, rfl⟩ | ⟨names, e, rest, rfl, he⟩ := split_idents ids
  · have howned := h.owned
    rw [← List.append_assoc] at howned
    rw [List.length_map] at hmany
    obtain ⟨s', h', hgrows⟩ := h.idents 1
    rw [typeless_several hmany howned.left]
    rw [← List.append_assoc] at h'
    refine h'.keeps hgrows ?_ ?_
    · rw [drops_list, drops_list, List.append_nil]
      exact .refl _
    · rw [nodes_list, nodes_list, List.append_nil]
      exact List.perm_append_comm
  · rw [typeless_copies hmany, typeless_ids_bad names he rest st]
    exact h.rejects _ _

/-- Left sides without a type keep what their expressions hold, unless a later one
is the first that is no identifier. -/
theorem Holds.typeless {ids : List Expr}
    (h : Holds s₀ st s (drops_list ids ++ (drops_list exps ++ held))
      (nodes_list ids ++ (nodes_list exps ++ nodes))) (hnil : ids = [] ↔ exps = [])
    (hident : ids.length = exps.length → (∃ e ∈ ids.head?, e.isIdent = true) →
      ∀ e ∈ ids, e.isIdent = true) :
    Keeps s₀ s held nodes (Parser_Do_Typeless_Variables ids exps st) := by
  by_cases hsame : ids.length = exps.length
  · exact h.typeless_same hsame (hident hsame)
  · cases ids with
    | nil => exact absurd (by rw [hnil.mp rfl]) hsame
    | cons e rest =>
      cases exps with
      | nil => cases hnil.mpr rfl
      | cons exp exps =>
        cases hcount : __validate_count (e :: rest).length (exp :: exps).length with
        | false =>
          rw [typeless_unmatched hcount]
          exact h.rejects _ _
        | true =>
          have hmatch := mt (validate_count_iff _ _).mpr fun hfalse =>
          Bool.false_ne_true (hfalse.symm.trans hcount)
          simp only [List.length_cons] at hmatch hsame
          obtain rfl : exps = [] := List.length_eq_zero_iff.mp (by omega)
          rw [List.length_nil] at hsame
          have hmany : 1 < (e :: rest).length := by
            rw [List.length_cons]
            omega
          exact h.typeless_list hmany

/-- Assignments keep what their expressions hold, also where nodes are left. -/
theorem Holds.assignments {left right : List Expr}
    (h : Holds s₀ st s (drops_list left ++ (drops_list right ++ held))
      (nodes_list left ++ (nodes_list right ++ nodes))) (hnil : right = [] → left = []) :
    Keeps s₀ s held nodes (Parser_Do_Assignments left right st) := by
  rw [← List.append_assoc, ← List.append_assoc] at h
  by_cases hsame : left.length = right.length
  · by_cases hone : left.length = 1
    · obtain ⟨lexp, rfl⟩ := List.length_eq_one_iff.mp hone
      obtain ⟨rexp, rfl⟩ := List.length_eq_one_iff.mp (hsame.symm.trans hone)
      cases hstored : Expr_Maybe_Stored lexp with
      | false =>
        rw [assign_not_stored hstored]
        exact h.free_both (.refl _) (.refl _) _ _
      | true =>
        have h' := h.made 1
        rw [assign_single hstored]
        rw [← List.append_assoc] at h'
        refine h'.keeps (.refl s) ?_ ?_
        · rw [drops_list, drops_list, drops_list, drops_list, List.append_nil, List.append_nil]
          exact .refl _
        · rw [nodes_list, nodes_list, nodes_list, nodes_list, List.append_nil, List.append_nil,
            Stmt.nodes, ← List.append_assoc lexp.nodes]
          exact List.perm_append_comm
    · obtain hall | ⟨stored, e, rest, hleft, hstored, he⟩ := split_stored left
      · have h' := h.made (1 + left.length)
        rw [assign_pairs hall hsame hone]
        rw [← List.append_assoc] at h'
        refine h'.keeps (.refl s) (drops_assignments hsame _).symm ?_
        have hvec := nodes_list_stmt (nodes_assignments hsame (st.mem.next + 1))
        exact List.perm_append_comm.trans hvec.symm
      · have h' := (h.made (1 + stored.length)).left
        rw [assign_unstored hleft hstored he hsame hone]
        exact h'.free_both (.refl _) (.refl _) _ _
  · cases right with
    | nil => exact absurd (by rw [hnil rfl]) hsame
    | cons e rest =>
      cases hcount : __validate_count left.length (e :: rest).length with
      | false =>
        rw [assign_unmatched hcount]
        exact h.free_both (.refl _) (.refl _) _ _
      | true =>
        have hmatch := mt (validate_count_iff _ _).mpr fun hfalse =>
          Bool.false_ne_true (hfalse.symm.trans hcount)
        rw [List.length_cons] at hmatch hsame
        obtain rfl : rest = [] := List.length_eq_zero_iff.mp (by omega)
        rw [List.length_nil] at hsame hmatch
        rw [assign_copies (by omega)]
        cases left.find? fun lexp => Expr_Maybe_Stored lexp = false with
        | some lexp => exact h.free_both (.refl _) (.refl _) _ _
        | none =>
          have h' := h.made 1
          rw [← List.append_assoc] at h'
          refine h'.keeps (.refl s) ?_ ?_
          · rw [drops_list, drops_list, List.append_nil]
            exact .refl _
          · rw [nodes_list, nodes_list, List.append_nil, Stmt.nodes,
              ← List.append_assoc (nodes_list left)]
            exact List.perm_append_comm

end typeless

end holds

end koala.ast
