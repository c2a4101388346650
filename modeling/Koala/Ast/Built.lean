import Koala.Ast.Expressions

open koala.parser koala.typedesc

namespace koala.ast

set_option linter.style.nameCheck false

section parts

variable {α : Type} {s₀ s s' : Descs} {st st' : State} {held : List TypeDesc} {nodes : List Nat}

/-- The last part of a node is the first that is owned. -/
theorem perm_last (a b c : List α) : (c ++ (a ++ b)).Perm (a ++ (b ++ c)) := by
  rw [← List.append_assoc a]
  exact List.perm_append_comm

theorem drops_stmts_append (vec vec' : List Stmt) :
    drops_stmts (vec ++ vec') = drops_stmts vec ++ drops_stmts vec' := by
  induction vec with
  | nil => rfl
  | cons stmt vec ih => rw [List.cons_append, drops_stmts, drops_stmts, ih, List.append_assoc]

theorem nodes_stmts_append (vec vec' : List Stmt) :
    nodes_stmts (vec ++ vec') = nodes_stmts vec ++ nodes_stmts vec' := by
  induction vec with
  | nil => rfl
  | cons stmt vec ih => rw [List.cons_append, nodes_stmts, nodes_stmts, ih, List.append_assoc]

/-- The node of a statement is made of what was made before. -/
theorem Holds.stmt {refs : List TypeDesc} {owned : List Nat}
    (h : Holds s₀ st' s' (refs ++ held) (owned ++ nodes)) (hgrows : Grows s s') (mk : Nat → Stmt)
    (hdrops : ∀ a, refs.Perm (mk a).drops) (howned : ∀ a, (a :: owned).Perm (mk a).nodes) :
    Keeps s₀ s held nodes (.ok (some (mk st'.Malloc.1), st'.Malloc.2)) :=
  h.malloc.keeps hgrows (hdrops _) (howned _)

theorem Keeps.after {s' : Descs} {r : Res (Option Stmt × State)} (h : Keeps s₀ s' held nodes r)
    (hgrows : Grows s s') : Keeps s₀ s held nodes r := by
  obtain ⟨stmt, st'', s'', hrun, h', hgrows'⟩ := h
  exact ⟨stmt, st'', s'', hrun, h', hgrows.trans hgrows'⟩

theorem length_of_map {vec : List Expr} {exps : List grammar.Expression}
    (hmap : vec.map Expr.isIdent = exps.map grammar.Expression.isID) : vec.length = exps.length := by
  have hlength := congrArg List.length hmap
  rw [List.length_map, List.length_map] at hlength
  exact hlength

theorem nil_iff_of_length {α β : Type} {l : List α} {l' : List β} (hlength : l.length = l'.length) :
    l = [] ↔ l' = [] := by
  rw [← List.length_eq_zero_iff, hlength, List.length_eq_zero_iff]

/-- Where two lists agree in who is good, all of one are if its first is good where
all of the other are. -/
theorem all_of_map {β : Type} {f : α → Bool} {g : β → Bool} {l : List α} {l' : List β}
    (hmap : l.map f = l'.map g) (hall : (∃ b ∈ l'.head?, g b = true) → ∀ b ∈ l', g b = true) :
    (∃ a ∈ l.head?, f a = true) → ∀ a ∈ l, f a = true := by
  rintro ⟨a, ha, htrue⟩
  have hmem : ∀ c ∈ l'.map g, c = true := by
    cases l with
    | nil => cases ha
    | cons a' l =>
      cases ha
      cases l' with
      | nil => cases hmap
      | cons b l' =>
        rw [List.map_cons, List.map_cons, List.cons.injEq] at hmap
        have hrest := hall ⟨b, rfl, hmap.1.symm.trans htrue⟩
        intro c hc
        obtain ⟨b', hb', rfl⟩ := List.mem_map.mp hc
        exact hrest b' hb'
  rw [← hmap] at hmem
  exact fun a' ha' => hmem _ (List.mem_map_of_mem ha')

end parts

namespace grammar

variable {extstbl : List CString} {s₀ : Descs}

theorem no_desc {s : Descs} : ∀ t ∈ (none : Option TypeDesc), t ∈ s.table := nofun

theorem build_type_holds {s : Descs} {st : State} {held : List TypeDesc} {nodes : List Nat}
    (type : Option Ty) (h : Holds s₀ st s held nodes) (hdefined : TypeDefined extstbl type) :
    ∃ st' s', build_type extstbl type st = .ok (type_desc extstbl type, st') ∧
      Holds s₀ st' s' held nodes ∧ Grows s s' ∧ ∀ t ∈ type_desc extstbl type, t ∈ s'.table := by
  cases type with
  | none => exact ⟨st, s, rfl, h, .refl s, nofun⟩
  | some type => exact type.build_holds h hdefined

/-- The parameters and the results of a function. -/
theorem build_types_holds {s : Descs} {st : State} {held : List TypeDesc} {nodes : List Nat}
    (args rets : IDTypes) (h : Holds s₀ st s held nodes)
    (hdefined : args.Defined extstbl ∧ rets.Defined extstbl) : ∃ args' rets' st₁ st₂ s',
      args.build extstbl st = .ok (args', st₁) ∧ rets.build extstbl st₁ = .ok (rets', st₂) ∧
        Holds s₀ st₂ s' (IdType.drops args' ++ IdType.drops rets' ++ held) nodes ∧
          Grows s s' := by
  obtain ⟨args', st₁, s₁, hrun₁, -, h₁, hgrows₁⟩ := args.build_holds h hdefined.1
  obtain ⟨rets', st₂, s₂, hrun₂, -, h₂, hgrows₂⟩ := rets.build_holds h₁ hdefined.2
  have h₃ := h₂.perm (List.perm_append_comm_assoc _ _ _) (.refl _)
  rw [← List.append_assoc] at h₃
  exact ⟨args', rets', st₁, st₂, s₂, hrun₁, hrun₂, h₃, hgrows₁.trans hgrows₂⟩

mutual

theorem Expression.build_holds (e : Expression) {s : Descs} {st : State} {held : List TypeDesc}
    {nodes : List Nat} (h : Holds s₀ st s (e.over extstbl ++ held) nodes)
    (hdefined : e.Defined extstbl) :
    Yields s₀ s held nodes Expr.drops Expr.nodes (fun exp => exp.isIdent = e.isID)
      (e.build extstbl st) := by
  cases e with
  | ID pos name =>
    rw [Expression.over] at h
    rw [Expression.build]
    exact h.leaf no_desc pos (fun hd => .ID hd name) (fun _ => rfl) (fun hd => by rw [Expr.drops])
      fun hd => by rw [Expr.nodes]
  | CONSTANT pos value =>
    rw [Expression.over] at h
    rw [Expression.build]
    refine h.leaf ?_ pos (fun hd => .CONST hd value) (fun _ => rfl)
      (fun hd => by rw [Expr.drops]) fun hd => by rw [Expr.nodes]
    rintro t ⟨⟩
    exact h.counted.basic _
  | TOKEN_NIL pos =>
    rw [Expression.over] at h
    rw [Expression.build]
    exact h.leaf no_desc pos (fun hd => .NIL hd) (fun _ => rfl) (fun hd => by rw [Expr.drops])
      fun hd => by rw [Expr.nodes]
  | SELF pos =>
    rw [Expression.over] at h
    rw [Expression.build]
    exact h.leaf no_desc pos (fun hd => .SELF hd) (fun _ => rfl) (fun hd => by rw [Expr.drops])
      fun hd => by rw [Expr.nodes]
  | SUPER pos =>
    rw [Expression.over] at h
    rw [Expression.build]
    exact h.leaf no_desc pos (fun hd => .SUPER hd) (fun _ => rfl) (fun hd => by rw [Expr.drops])
      fun hd => by rw [Expr.nodes]
  | AttributeExpression pos left id =>
    rw [Expression.over] at h
    rw [Expression.Defined] at hdefined
    obtain ⟨left', st₁, s₁, hrun₁, -, h₁, hgrows₁⟩ := left.build_holds h hdefined
    rw [Expression.build, hrun₁, ok_bind]
    refine h₁.node hgrows₁ no_desc pos (fun hd => .ATTRIBUTE hd id left') (fun _ => rfl)
      (fun hd hhd => ?_) fun hd => ?_
    · rw [Expr.drops, hhd]
      exact List.perm_append_comm
    · rw [Expr.nodes]
      exact (List.perm_append_singleton _ _).symm
  | CallExpression pos left args =>
    rw [Expression.over, List.append_assoc] at h
    rw [Expression.Defined] at hdefined
    obtain ⟨left', st₁, s₁, hrun₁, -, h₁, hgrows₁⟩ := left.build_holds h hdefined.1
    obtain ⟨args', st₂, s₂, hrun₂, -, h₂, hgrows₂⟩ := build_exprs_holds args
      (h₁.perm (List.perm_append_comm_assoc _ _ _) (.refl _)) hdefined.2
    rw [← List.append_assoc, ← List.append_assoc] at h₂
    rw [Expression.build, hrun₁, ok_bind]
    dsimp only
    rw [hrun₂, ok_bind]
    refine h₂.node (hgrows₁.trans hgrows₂) no_desc pos (fun hd => .CALL hd args' left')
      (fun _ => rfl) (fun hd hhd => ?_) fun hd => ?_
    · rw [Expr.drops, hhd]
      exact perm_last _ _ _
    · rw [Expr.nodes]
      exact perm_last _ _ [hd.addr]
  | SubScriptExpression pos left index =>
    rw [Expression.over, List.append_assoc] at h
    rw [Expression.Defined] at hdefined
    obtain ⟨left', st₁, s₁, hrun₁, -, h₁, hgrows₁⟩ := left.build_holds h hdefined.1
    obtain ⟨index', st₂, s₂, hrun₂, -, h₂, hgrows₂⟩ := index.build_holds
      (h₁.perm (List.perm_append_comm_assoc _ _ _) (.refl _)) hdefined.2
    rw [← List.append_assoc, ← List.append_assoc] at h₂
    rw [Expression.build, hrun₁, ok_bind]
    dsimp only
    rw [hrun₂, ok_bind]
    refine h₂.node (hgrows₁.trans hgrows₂) no_desc pos (fun hd => .SUBSCRIPT hd index' left')
      (fun _ => rfl) (fun hd hhd => ?_) fun hd => ?_
    · rw [Expr.drops, hhd]
      exact perm_last _ _ _
    · rw [Expr.nodes]
      exact perm_last _ _ [hd.addr]
  | SliceExpression pos left start stop =>
    rw [Expression.over, List.append_assoc, List.append_assoc] at h
    rw [Expression.Defined] at hdefined
    obtain ⟨left', st₁, s₁, hrun₁, -, h₁, hgrows₁⟩ := left.build_holds h hdefined.1
    obtain ⟨start', st₂, s₂, hrun₂, -, h₂, hgrows₂⟩ := build_opt_holds start
      (h₁.perm (List.perm_append_comm_assoc _ _ _) (.refl _)) hdefined.2.1
    have hstop : (drops_opt start' ++ (left'.drops ++ (over_opt extstbl stop ++ held))).Perm
        (over_opt extstbl stop ++ (drops_opt start' ++ (left'.drops ++ held))) := by
      refine List.perm_iff_count.mpr fun t => ?_
      simp only [List.count_append]
      omega
    obtain ⟨stop', st₃, s₃, hrun₃, -, h₃, hgrows₃⟩ := build_opt_holds stop
      (h₂.perm hstop (.refl _)) hdefined.2.2
    rw [← List.append_assoc (drops_opt start'), ← List.append_assoc (drops_opt stop'),
      ← List.append_assoc (nodes_opt start'), ← List.append_assoc (nodes_opt stop')] at h₃
    rw [Expression.build, hrun₁, ok_bind]
    dsimp only
    rw [hrun₂, ok_bind]
    dsimp only
    rw [hrun₃, ok_bind]
    refine h₃.node ((hgrows₁.trans hgrows₂).trans hgrows₃) no_desc pos
      (fun hd => .SLICE hd start' stop' left') (fun _ => rfl) (fun hd hhd => ?_) fun hd => ?_
    · rw [Expr.drops, hhd]
      refine List.perm_iff_count.mpr fun t => ?_
      simp only [List.count_append]
      omega
    · rw [Expr.nodes, ← List.singleton_append]
      refine List.perm_iff_count.mpr fun t => ?_
      simp only [List.count_append]
      omega
  | UnaryExpression pos op exp =>
    rw [Expression.over] at h
    rw [Expression.Defined] at hdefined
    obtain ⟨exp', st₁, s₁, hrun₁, -, h₁, hgrows₁⟩ := exp.build_holds h hdefined
    rw [Expression.build, hrun₁, ok_bind]
    refine h₁.node hgrows₁ (fun t ht => ?_) pos (fun hd => .UNARY hd op exp') (fun _ => rfl)
      (fun hd hhd => ?_) fun hd => ?_
    · exact h₁.counted.held_mem t (List.mem_append_left _ (head_desc_mem exp' t ht))
    · rw [Expr.drops, hhd]
      exact List.perm_append_comm
    · rw [Expr.nodes]
      exact (List.perm_append_singleton _ _).symm
  | BinaryExpression pos op left right =>
    rw [Expression.over, List.append_assoc] at h
    rw [Expression.Defined] at hdefined
    obtain ⟨left', st₁, s₁, hrun₁, -, h₁, hgrows₁⟩ := left.build_holds h hdefined.1
    obtain ⟨right', st₂, s₂, hrun₂, -, h₂, hgrows₂⟩ := right.build_holds
      (h₁.perm (List.perm_append_comm_assoc _ _ _) (.refl _)) hdefined.2
    have h₃ := h₂.perm (List.perm_append_comm_assoc _ _ _) (List.perm_append_comm_assoc _ _ _)
    rw [← List.append_assoc, ← List.append_assoc] at h₃
    rw [Expression.build, hrun₁, ok_bind]
    dsimp only
    rw [hrun₂, ok_bind]
    refine h₃.node (hgrows₁.trans hgrows₂) (fun t ht => ?_) pos
      (fun hd => .BINARY hd op left' right') (fun _ => rfl) (fun hd hhd => ?_) fun hd => ?_
    · exact h₃.counted.held_mem t
        (List.mem_append_left _ (List.mem_append_left _ (head_desc_mem left' t ht)))
    · rw [Expr.drops, hhd]
      exact perm_last _ _ _
    · rw [Expr.nodes]
      exact perm_last _ _ [hd.addr]
  | ArrayOrSetInitializer init =>
    rw [Expression.over] at h
    rw [Expression.Defined] at hdefined
    rw [Expression.build]
    exact init.build_holds h hdefined
  | MapInitializer init =>
    rw [Expression.over] at h
    rw [Expression.Defined] at hdefined
    rw [Expression.build]
    exact init.build_holds h hdefined
  | ArrayCreationExpression pos dims type init =>
    rw [Expression.over, List.append_assoc, List.append_assoc] at h
    rw [Expression.Defined] at hdefined
    obtain ⟨hdims, htype, hsome, hinit⟩ := hdefined
    obtain ⟨dims', st₁, s₁, hrun₁, -, h₁, hgrows₁⟩ := build_exprs_holds dims h hdims
    obtain ⟨st₂, s₂, hrun₂, h₂, hgrows₂, hmem⟩ := type.build_holds h₁ htype
    obtain ⟨init', st₃, s₃, hrun₃, -, h₃, hgrows₃⟩ := build_array_init_holds init
      (h₂.perm (List.perm_append_comm_assoc _ _ _) (.refl _)) hinit
    obtain ⟨t, ht⟩ := Option.isSome_iff_exists.mp hsome
    rw [ht] at h₃ hrun₂
    have harrays : (drops_opt init' ++ (drops_list dims' ++ (arrays (some t) ++ held))).Perm
        (arrays (some t) ++ (drops_opt init' ++ (drops_list dims' ++ held))) := by
      refine List.perm_iff_count.mpr fun u => ?_
      simp only [List.count_append]
      omega
    obtain ⟨hd, n, base, st₄, s₄, hrun₄, hhd, h₄, hgrows₄⟩ := (h₃.perm harrays (.refl _)).new_array
      (hgrows₃.mem (hmem t ht)) pos dims' init'
    rw [Expression.build, hrun₁, ok_bind]
    dsimp only
    rw [hrun₂, ok_bind]
    dsimp only
    rw [hrun₃, ok_bind]
    dsimp only
    rw [deref, ok_bind, hrun₄]
    refine ⟨_, st₄, s₄, rfl, rfl, h₄.perm ?_ ?_,
      (hgrows₁.trans hgrows₂).trans (hgrows₃.trans hgrows₄)⟩
    · rw [Expr.drops, hhd, ← List.singleton_append]
      refine List.perm_iff_count.mpr fun u => ?_
      simp only [List.count_append, drop, Option.toList_some, Option.toList_none, List.count_nil]
      omega
    · rw [Expr.nodes, ← List.singleton_append]
      refine List.perm_iff_count.mpr fun u => ?_
      simp only [List.count_append]
      omega
  | ArrayDimsExpression pos dims base init =>
    rw [Expression.over] at h
    rw [Expression.Defined] at hdefined
    obtain ⟨hbase, hsome, hinit⟩ := hdefined
    obtain ⟨st₁, s₁, hrun₁, h₁, hgrows₁, hmem⟩ := base.build_holds h hbase
    obtain ⟨init', st₂, s₂, hrun₂, -, h₂, hgrows₂⟩ := build_array_init_holds init h₁ hinit
    obtain ⟨t, ht⟩ := Option.isSome_iff_exists.mp hsome
    have hplain := base.arrays_desc extstbl
    rw [ht] at hrun₁ hplain
    obtain ⟨hd, st₃, s₃, hrun₃, hhd, h₃, hgrows₃⟩ := h₂.new_array_nulls
      (hgrows₂.mem (hmem t ht)) hplain pos dims init'
    rw [Expression.build, hrun₁, ok_bind]
    dsimp only
    rw [hrun₂, ok_bind]
    dsimp only
    rw [deref, ok_bind, hrun₃]
    refine ⟨_, st₃, s₃, rfl, rfl, h₃.perm ?_ ?_, (hgrows₁.trans hgrows₂).trans hgrows₃⟩
    · rw [Expr.drops, hhd, drop, drop, Option.toList_none, List.append_nil]
      exact .refl _
    · rw [Expr.nodes, nodes_list, List.nil_append, List.append_assoc]
      exact List.perm_middle.symm
  | SetCreationExpression pos key init =>
    rw [Expression.over] at h
    rw [Expression.Defined] at hdefined
    obtain ⟨st₁, s₁, hrun₁, h₁, hgrows₁, hmem⟩ := (BaseType.SetType key).build_holds h hdefined.1
    obtain ⟨init', st₂, s₂, hrun₂, -, h₂, hgrows₂⟩ := build_array_init_holds init h₁ hdefined.2
    obtain ⟨s₃, h₃, hgrows₃⟩ := h₂.incref fun t ht => hgrows₂.mem (hmem t ht)
    rw [← List.append_assoc] at h₃
    rw [Expression.build, hrun₁, ok_bind]
    dsimp only
    rw [hrun₂, ok_bind]
    refine h₃.node ((hgrows₁.trans hgrows₂).trans hgrows₃) no_desc pos
      (fun hd => .SET hd _ init') (fun _ => rfl) (fun hd hhd => ?_) fun hd => ?_
    · rw [Expr.drops, hhd, drop, Option.toList_none, List.nil_append, List.append_nil]
      exact .refl _
    · rw [Expr.nodes]
      exact (List.perm_append_singleton _ _).symm
  | MapCreationExpression pos key val init =>
    rw [Expression.over] at h
    rw [Expression.Defined] at hdefined
    obtain ⟨st₁, s₁, hrun₁, h₁, hgrows₁, hmem⟩ :=
      (BaseType.MapType key val).build_holds h hdefined.1
    obtain ⟨init', st₂, s₂, hrun₂, -, h₂, hgrows₂⟩ := build_map_init_holds init h₁ hdefined.2
    obtain ⟨s₃, h₃, hgrows₃⟩ := h₂.incref fun t ht => hgrows₂.mem (hmem t ht)
    rw [← List.append_assoc] at h₃
    rw [Expression.build, hrun₁, ok_bind]
    dsimp only
    rw [hrun₂, ok_bind]
    refine h₃.node ((hgrows₁.trans hgrows₂).trans hgrows₃) no_desc pos
      (fun hd => .MAP hd _ init') (fun _ => rfl) (fun hd hhd => ?_) fun hd => ?_
    · rw [Expr.drops, hhd, drop, Option.toList_none, List.nil_append, List.append_nil]
      exact .refl _
    · rw [Expr.nodes]
      exact (List.perm_append_singleton _ _).symm
  | AnonyFuncExpression pos args rets body =>
    rw [Expression.over] at h
    rw [Expression.Defined] at hdefined
    obtain ⟨args', rets', st₁, st₂, s₂, hrun₁, hrun₂, h₂, hgrows₂⟩ :=
      build_types_holds args rets h ⟨hdefined.1, hdefined.2.1⟩
    obtain ⟨body', st₃, s₃, hrun₃, -, h₃, hgrows₃⟩ := build_stmts_holds body
      (h₂.perm (List.perm_append_comm_assoc _ _ _) (.refl _)) hdefined.2.2
    rw [← List.append_assoc] at h₃
    rw [Expression.build, hrun₁, ok_bind]
    dsimp only
    rw [hrun₂, ok_bind]
    dsimp only
    rw [hrun₃, ok_bind]
    refine h₃.node (hgrows₂.trans hgrows₃) no_desc pos
      (fun hd => .ANONY_FUNC hd args' rets' body') (fun _ => rfl) (fun hd hhd => ?_) fun hd => ?_
    · rw [Expr.drops, hhd]
      refine List.perm_iff_count.mpr fun t => ?_
      simp only [List.count_append]
      omega
    · rw [Expr.nodes]
      exact (List.perm_append_singleton _ _).symm

theorem build_opt_holds (e : Option Expression) {s : Descs} {st : State} {held : List TypeDesc}
    {nodes : List Nat} (h : Holds s₀ st s (over_opt extstbl e ++ held) nodes)
    (hdefined : Defined_opt extstbl e) :
    Yields s₀ s held nodes drops_opt nodes_opt (fun _ => True) (build_opt extstbl e st) := by
  cases e with
  | none =>
    rw [over_opt] at h
    rw [build_opt]
    exact ⟨none, st, s, rfl, trivial, h, .refl s⟩
  | some exp =>
    rw [over_opt] at h
    rw [Defined_opt] at hdefined
    obtain ⟨exp', st₁, s₁, hrun₁, -, h₁, hgrows₁⟩ := exp.build_holds h hdefined
    rw [build_opt, hrun₁, ok_bind]
    exact ⟨some exp', st₁, s₁, rfl, trivial, h₁, hgrows₁⟩

theorem build_exprs_holds (exps : List Expression) {s : Descs} {st : State} {held : List TypeDesc}
    {nodes : List Nat} (h : Holds s₀ st s (over_exprs extstbl exps ++ held) nodes)
    (hdefined : Defined_exprs extstbl exps) :
    Yields s₀ s held nodes drops_list nodes_list
      (fun vec => vec.map Expr.isIdent = exps.map Expression.isID) (build_exprs extstbl exps st) := by
  cases exps with
  | nil =>
    rw [over_exprs] at h
    rw [build_exprs]
    exact ⟨[], st, s, rfl, rfl, h, .refl s⟩
  | cons exp exps =>
    rw [over_exprs, List.append_assoc] at h
    rw [Defined_exprs] at hdefined
    obtain ⟨exp', st₁, s₁, hrun₁, hident, h₁, hgrows₁⟩ := exp.build_holds h hdefined.1
    obtain ⟨vec, st₂, s₂, hrun₂, hidents, h₂, hgrows₂⟩ := build_exprs_holds exps
      (h₁.perm (List.perm_append_comm_assoc _ _ _) (.refl _)) hdefined.2
    have h₃ := h₂.perm (List.perm_append_comm_assoc _ _ _) (List.perm_append_comm_assoc _ _ _)
    rw [← List.append_assoc, ← List.append_assoc] at h₃
    rw [build_exprs, hrun₁, ok_bind]
    dsimp only
    rw [hrun₂, ok_bind]
    refine ⟨exp' :: vec, st₂, s₂, rfl, ?_, h₃, hgrows₁.trans hgrows₂⟩
    dsimp only
    rw [List.map_cons, List.map_cons, hident, hidents]

theorem ArrayInit.build_holds (init : ArrayInit) {s : Descs} {st : State} {held : List TypeDesc}
    {nodes : List Nat} (h : Holds s₀ st s (init.over extstbl ++ held) nodes)
    (hdefined : init.Defined extstbl) :
    Yields s₀ s held nodes Expr.drops Expr.nodes (fun exp => exp.isIdent = false)
      (init.build extstbl st) := by
  cases init with
  | mk pos vec =>
    rw [ArrayInit.over] at h
    rw [ArrayInit.Defined] at hdefined
    obtain ⟨vec', st₁, s₁, hrun₁, -, h₁, hgrows₁⟩ := build_exprs_holds vec h hdefined
    rw [ArrayInit.build, hrun₁, ok_bind]
    refine h₁.node hgrows₁ no_desc pos (fun hd => .ARRAY_LIST hd vec') (fun _ => rfl)
      (fun hd hhd => ?_) fun hd => ?_
    · rw [Expr.drops, hhd]
      exact List.perm_append_comm
    · rw [Expr.nodes]
      exact (List.perm_append_singleton _ _).symm

theorem build_array_init_holds (init : Option ArrayInit) {s : Descs} {st : State}
    {held : List TypeDesc} {nodes : List Nat}
    (h : Holds s₀ st s (over_array_init extstbl init ++ held) nodes)
    (hdefined : Defined_array_init extstbl init) :
    Yields s₀ s held nodes drops_opt nodes_opt (fun _ => True)
      (build_array_init extstbl init st) := by
  cases init with
  | none =>
    rw [over_array_init] at h
    rw [build_array_init]
    exact ⟨none, st, s, rfl, trivial, h, .refl s⟩
  | some init =>
    rw [over_array_init] at h
    rw [Defined_array_init] at hdefined
    obtain ⟨exp, st₁, s₁, hrun₁, -, h₁, hgrows₁⟩ := init.build_holds h hdefined
    rw [build_array_init, hrun₁, ok_bind]
    exact ⟨some exp, st₁, s₁, rfl, trivial, h₁, hgrows₁⟩

theorem MapInit.build_holds (init : MapInit) {s : Descs} {st : State} {held : List TypeDesc}
    {nodes : List Nat} (h : Holds s₀ st s (init.over extstbl ++ held) nodes)
    (hdefined : init.Defined extstbl) :
    Yields s₀ s held nodes Expr.drops Expr.nodes (fun exp => exp.isIdent = false)
      (init.build extstbl st) := by
  cases init with
  | mk pos vec =>
    rw [MapInit.over] at h
    rw [MapInit.Defined] at hdefined
    obtain ⟨vec', st₁, s₁, hrun₁, -, h₁, hgrows₁⟩ := build_entries_holds vec h hdefined
    rw [MapInit.build, hrun₁, ok_bind]
    refine h₁.node hgrows₁ no_desc pos (fun hd => .MAP_LIST hd vec') (fun _ => rfl)
      (fun hd hhd => ?_) fun hd => ?_
    · rw [Expr.drops, hhd]
      exact List.perm_append_comm
    · rw [Expr.nodes]
      exact (List.perm_append_singleton _ _).symm

theorem build_map_init_holds (init : Option MapInit) {s : Descs} {st : State}
    {held : List TypeDesc} {nodes : List Nat}
    (h : Holds s₀ st s (over_map_init extstbl init ++ held) nodes)
    (hdefined : Defined_map_init extstbl init) :
    Yields s₀ s held nodes drops_opt nodes_opt (fun _ => True) (build_map_init extstbl init st) := by
  cases init with
  | none =>
    rw [over_map_init] at h
    rw [build_map_init]
    exact ⟨none, st, s, rfl, trivial, h, .refl s⟩
  | some init =>
    rw [over_map_init] at h
    rw [Defined_map_init] at hdefined
    obtain ⟨exp, st₁, s₁, hrun₁, -, h₁, hgrows₁⟩ := init.build_holds h hdefined
    rw [build_map_init, hrun₁, ok_bind]
    exact ⟨some exp, st₁, s₁, rfl, trivial, h₁, hgrows₁⟩

theorem MapKeyValue.build_holds (entry : MapKeyValue) {s : Descs} {st : State}
    {held : List TypeDesc} {nodes : List Nat}
    (h : Holds s₀ st s (entry.over extstbl ++ held) nodes) (hdefined : entry.Defined extstbl) :
    Yields s₀ s held nodes Expr.drops Expr.nodes (fun exp => exp.isIdent = false)
      (entry.build extstbl st) := by
  cases entry with
  | mk pos key val =>
    rw [MapKeyValue.over, List.append_assoc] at h
    rw [MapKeyValue.Defined] at hdefined
    obtain ⟨key', st₁, s₁, hrun₁, -, h₁, hgrows₁⟩ := key.build_holds h hdefined.1
    obtain ⟨val', st₂, s₂, hrun₂, -, h₂, hgrows₂⟩ := val.build_holds
      (h₁.perm (List.perm_append_comm_assoc _ _ _) (.refl _)) hdefined.2
    have h₃ := h₂.perm (List.perm_append_comm_assoc _ _ _) (List.perm_append_comm_assoc _ _ _)
    rw [← List.append_assoc, ← List.append_assoc] at h₃
    rw [MapKeyValue.build, hrun₁, ok_bind]
    dsimp only
    rw [hrun₂, ok_bind]
    refine h₃.node (hgrows₁.trans hgrows₂) no_desc pos (fun hd => .MAP_ENTRY hd key' val')
      (fun _ => rfl) (fun hd hhd => ?_) fun hd => ?_
    · rw [Expr.drops, hhd]
      exact perm_last _ _ _
    · rw [Expr.nodes]
      exact perm_last _ _ [hd.addr]

theorem build_entries_holds (entries : List MapKeyValue) {s : Descs} {st : State}
    {held : List TypeDesc} {nodes : List Nat}
    (h : Holds s₀ st s (over_entries extstbl entries ++ held) nodes)
    (hdefined : Defined_entries extstbl entries) :
    Yields s₀ s held nodes drops_list nodes_list (fun _ => True)
      (build_entries extstbl entries st) := by
  cases entries with
  | nil =>
    rw [over_entries] at h
    rw [build_entries]
    exact ⟨[], st, s, rfl, trivial, h, .refl s⟩
  | cons entry entries =>
    rw [over_entries, List.append_assoc] at h
    rw [Defined_entries] at hdefined
    obtain ⟨entry', st₁, s₁, hrun₁, -, h₁, hgrows₁⟩ := entry.build_holds h hdefined.1
    obtain ⟨vec, st₂, s₂, hrun₂, -, h₂, hgrows₂⟩ := build_entries_holds entries
      (h₁.perm (List.perm_append_comm_assoc _ _ _) (.refl _)) hdefined.2
    have h₃ := h₂.perm (List.perm_append_comm_assoc _ _ _) (List.perm_append_comm_assoc _ _ _)
    rw [← List.append_assoc, ← List.append_assoc] at h₃
    rw [build_entries, hrun₁, ok_bind]
    dsimp only
    rw [hrun₂, ok_bind]
    exact ⟨entry' :: vec, st₂, s₂, rfl, trivial, h₃, hgrows₁.trans hgrows₂⟩

theorem Statement.build_holds (stmt : Statement) {s : Descs} {st : State} {held : List TypeDesc}
    {nodes : List Nat} (h : Holds s₀ st s (stmt.over extstbl ++ held) nodes)
    (hdefined : stmt.Defined extstbl) : Keeps s₀ s held nodes (stmt.build extstbl st) := by
  cases stmt with
  | EMPTY =>
    rw [Statement.over] at h
    rw [Statement.build]
    exact ⟨none, st, s, rfl, h, .refl s⟩
  | ExprStatement exp =>
    rw [Statement.over] at h
    rw [Statement.Defined] at hdefined
    obtain ⟨exp', st₁, s₁, hrun₁, -, h₁, hgrows₁⟩ := exp.build_holds h hdefined
    rw [Statement.build, hrun₁, ok_bind]
    refine h₁.stmt hgrows₁ (fun addr => .EXPR addr exp') (fun addr => ?_) fun addr => ?_
    · rw [Stmt.drops]
    · rw [Stmt.nodes]
      exact (List.perm_append_singleton _ _).symm
  | VariableDeclaration ids type exps =>
    rw [Statement.over] at h
    rw [Statement.Defined] at hdefined
    obtain ⟨st₁, s₁, hrun₁, h₁, hgrows₁, hmem⟩ := build_type_holds type h hdefined.1
    obtain ⟨exps', st₂, s₂, hrun₂, -, h₂, hgrows₂⟩ := build_exprs_holds exps h₁ hdefined.2
    rw [Statement.build, hrun₁, ok_bind]
    dsimp only
    rw [hrun₂, ok_bind]
    exact (h₂.variables fun t ht => hgrows₂.mem (hmem t ht)).after (hgrows₁.trans hgrows₂)
  | VariableDeclarationTypeless ids exps =>
    rw [Statement.over, List.append_assoc] at h
    rw [Statement.Defined] at hdefined
    obtain ⟨hids, hexps, hnil, hident⟩ := hdefined
    obtain ⟨ids', st₁, s₁, hrun₁, hmap₁, h₁, hgrows₁⟩ := build_exprs_holds ids h hids
    obtain ⟨exps', st₂, s₂, hrun₂, hmap₂, h₂, hgrows₂⟩ := build_exprs_holds exps
      (h₁.perm (List.perm_append_comm_assoc _ _ _) (.refl _)) hexps
    have h₃ := h₂.perm (List.perm_append_comm_assoc _ _ _) (List.perm_append_comm_assoc _ _ _)
    have hlength₁ := length_of_map hmap₁
    have hlength₂ := length_of_map hmap₂
    rw [Statement.build, hrun₁, ok_bind]
    dsimp only
    rw [hrun₂, ok_bind]
    refine (h₃.typeless ?_ fun hsame => ?_).after (hgrows₁.trans hgrows₂)
    · rw [nil_iff_of_length hlength₁, nil_iff_of_length hlength₂]
      exact hnil
    · exact all_of_map hmap₁ (hident (hlength₁.symm.trans (hsame.trans hlength₂)))
  | Assignment left right =>
    rw [Statement.over, List.append_assoc] at h
    rw [Statement.Defined] at hdefined
    obtain ⟨hleft, hright, hnil⟩ := hdefined
    obtain ⟨left', st₁, s₁, hrun₁, hmap₁, h₁, hgrows₁⟩ := build_exprs_holds left h hleft
    obtain ⟨right', st₂, s₂, hrun₂, hmap₂, h₂, hgrows₂⟩ := build_exprs_holds right
      (h₁.perm (List.perm_append_comm_assoc _ _ _) (.refl _)) hright
    have h₃ := h₂.perm (List.perm_append_comm_assoc _ _ _) (List.perm_append_comm_assoc _ _ _)
    rw [Statement.build, hrun₁, ok_bind]
    dsimp only
    rw [hrun₂, ok_bind]
    refine (h₃.assignments fun hempty => ?_).after (hgrows₁.trans hgrows₂)
    rw [nil_iff_of_length (length_of_map hmap₁)]
    exact hnil ((nil_iff_of_length (length_of_map hmap₂)).mp hempty)
  | CompAssignment pos op left right =>
    rw [Statement.over, List.append_assoc] at h
    rw [Statement.Defined] at hdefined
    obtain ⟨left', st₁, s₁, hrun₁, -, h₁, hgrows₁⟩ := left.build_holds h hdefined.1
    obtain ⟨right', st₂, s₂, hrun₂, -, h₂, hgrows₂⟩ := right.build_holds
      (h₁.perm (List.perm_append_comm_assoc _ _ _) (.refl _)) hdefined.2
    have h₃ := h₂.perm (List.perm_append_comm_assoc _ _ _) (List.perm_append_comm_assoc _ _ _)
    have hgrows := hgrows₁.trans hgrows₂
    rw [Statement.build, hrun₁, ok_bind]
    dsimp only
    rw [hrun₂, ok_bind]
    dsimp only
    split
    · have herror := h₃.error pos "expr is not left expr"
      obtain ⟨s₄, h₄, hgrows₄⟩ := herror.released
      obtain ⟨s₅, h₅, hgrows₅⟩ := h₄.released
      rw [State.free_ok (Free_Expr_frees left') herror.owned.left, ok_bind,
        State.free_ok (Free_Expr_frees right') h₄.owned.left, ok_bind]
      exact ⟨none, _, s₅, rfl, h₅, hgrows.trans (hgrows₄.trans hgrows₅)⟩
    · rw [← List.append_assoc, ← List.append_assoc] at h₃
      refine h₃.stmt hgrows (fun addr => .ASSIGN addr op left' right') (fun addr => ?_)
        fun addr => ?_
      · rw [Stmt.drops]
      · rw [Stmt.nodes]
        exact perm_last _ _ [addr]
  | ReturnStatement pos exps =>
    rw [Statement.over] at h
    rw [Statement.Defined] at hdefined
    obtain ⟨exps', st₁, s₁, hrun₁, -, h₁, hgrows₁⟩ := build_exprs_holds exps h hdefined
    rw [Statement.build, hrun₁, ok_bind]
    refine h₁.stmt hgrows₁ (fun addr => .RETURN addr pos exps') (fun addr => ?_) fun addr => ?_
    · rw [Stmt.drops]
    · rw [Stmt.nodes]
      exact (List.perm_append_singleton _ _).symm
  | Block stmts =>
    rw [Statement.over] at h
    rw [Statement.Defined] at hdefined
    obtain ⟨vec, st₁, s₁, hrun₁, -, h₁, hgrows₁⟩ := build_stmts_holds stmts h hdefined
    rw [Statement.build, hrun₁, ok_bind]
    refine h₁.stmt hgrows₁ (fun addr => .LIST addr true vec) (fun addr => ?_) fun addr => ?_
    · rw [Stmt.drops]
    · rw [Stmt.nodes]
      exact (List.perm_append_singleton _ _).symm

theorem build_stmts_holds (stmts : List Statement) {s : Descs} {st : State} {held : List TypeDesc}
    {nodes : List Nat} (h : Holds s₀ st s (over_stmts extstbl stmts ++ held) nodes)
    (hdefined : Defined_stmts extstbl stmts) :
    Yields s₀ s held nodes drops_stmts nodes_stmts (fun _ => True) (build_stmts extstbl stmts st) := by
  cases stmts with
  | nil =>
    rw [over_stmts] at h
    rw [build_stmts]
    exact ⟨[], st, s, rfl, trivial, h, .refl s⟩
  | cons stmt stmts =>
    rw [over_stmts, List.append_assoc] at h
    rw [Defined_stmts] at hdefined
    obtain ⟨stmt', st₁, s₁, hrun₁, h₁, hgrows₁⟩ := stmt.build_holds h hdefined.1
    obtain ⟨vec, st₂, s₂, hrun₂, -, h₂, hgrows₂⟩ := build_stmts_holds stmts
      (h₁.perm (List.perm_append_comm_assoc _ _ _) (.refl _)) hdefined.2
    have h₃ := h₂.perm (List.perm_append_comm_assoc _ _ _) (List.perm_append_comm_assoc _ _ _)
    rw [← List.append_assoc, ← List.append_assoc, ← drops_stmts_append, ← nodes_stmts_append] at h₃
    rw [build_stmts, hrun₁, ok_bind]
    dsimp only
    rw [hrun₂, ok_bind]
    exact ⟨stmt'.toList ++ vec, st₂, s₂, rfl, trivial, h₃, hgrows₁.trans hgrows₂⟩

end

end grammar

end koala.ast
