import Koala.Ast.Built

open koala.parser koala.typedesc

namespace koala.ast

set_option linter.style.nameCheck false

section variables_

variable {s₀ s : Descs} {st st' : State} {held : List TypeDesc} {nodes : List Nat}
  {ids : List Ident} {exps : List Expr} {type : Option TypeDesc} {konst : Bool}

theorem var_decls_all (i : Nat) (ids : List Ident) (st : State) :
    (var_decls type exps konst i ids st).1.all Stmt.isVAR = true := by
  induction ids generalizing i st with
  | nil => rfl
  | cons id ids ih => exact ih (i + 1) _

/-- What declares variables: one declaration, a list of such, or several names of
one expression. -/
inductive Declarations : Stmt → Prop where
  | VAR (addr : Nat) (id : Ident) (type : Option TypeDesc) (exp : Option Expr) (konst : Bool) :
    Declarations (.VAR addr id type exp konst)
  | LIST (addr : Nat) (block : Bool) (vec : List Stmt) (hvec : vec.all Stmt.isVAR = true) :
    Declarations (.LIST addr block vec)
  | VARLIST (addr : Nat) (ids : List Ident) (type : Option TypeDesc) (exp : Expr) (konst : Bool) :
    Declarations (.VARLIST addr ids type exp konst)

theorem variables_declarations {stmt : Stmt}
    (hrun : __Parser_Do_Variables ids type exps konst st = .ok (some stmt, st')) :
    Declarations stmt := by
  unfold __Parser_Do_Variables at hrun
  dsimp only at hrun
  split at hrun
  · obtain ⟨e, -, hrun⟩ := bind_eq_ok_iff.mp hrun
    obtain ⟨st₁, -, hnone⟩ := bind_eq_ok_iff.mp hrun
    cases hnone
  · split at hrun
    · split at hrun
      · obtain ⟨id, -, hsome⟩ := bind_eq_ok_iff.mp hrun
        cases hsome
        exact .VAR ..
      · cases hrun
        exact .LIST _ _ _ (var_decls_all 0 ids _)
    · obtain ⟨_, -, hrun⟩ := bind_eq_ok_iff.mp hrun
      split at hrun
      · obtain ⟨e, -, hsome⟩ := bind_eq_ok_iff.mp hrun
        cases hsome
        exact .VARLIST ..
      · split at hrun
        · obtain ⟨id, -, hsome⟩ := bind_eq_ok_iff.mp hrun
          cases hsome
          exact .VAR ..
        · cases hrun
          exact .LIST _ _ _ (var_decls_all 0 ids _)

theorem released_all {vec : List Stmt} (hvec : vec.all Stmt.isVAR = true) :
    vec.flatMap released = vec := by
  induction vec with
  | nil => rfl
  | cons stmt vec ih =>
    rw [List.all_cons, Bool.and_eq_true] at hvec
    rw [List.flatMap_cons, ih hvec.2]
    cases stmt <;> first | rfl | cases hvec.1

/-- The references and the nodes of the statements of a module. -/
def drops_module (stmts : List Stmt) : List TypeDesc := drops_stmts (stmts.flatMap released)

def nodes_module (stmts : List Stmt) : List Nat := nodes_stmts (stmts.flatMap released)

theorem drops_module_append (vec vec' : List Stmt) :
    drops_module (vec ++ vec') = drops_module vec ++ drops_module vec' := by
  rw [drops_module, List.flatMap_append, drops_stmts_append]
  rfl

theorem nodes_module_append (vec vec' : List Stmt) :
    nodes_module (vec ++ vec') = nodes_module vec ++ nodes_module vec' := by
  rw [nodes_module, List.flatMap_append, nodes_stmts_append]
  rfl

/-- The declarations of a statement are added to those of the module. -/
theorem Keeps.added {stmt : Option Stmt} {st₁ : State}
    (h : Keeps s₀ s held nodes (__Parser_Do_Variables ids type exps konst st))
    (hrun : __Parser_Do_Variables ids type exps konst st = .ok (stmt, st₁)) :
    Yields s₀ s held nodes drops_module nodes_module (fun _ => True)
      (Parser_New_Variables stmt st₁) := by
  obtain ⟨stmt', st', s', hrun', h', hgrows⟩ := h
  cases hrun.symm.trans hrun'
  cases stmt with
  | none => exact ⟨[], st₁, s', rfl, trivial, h', hgrows⟩
  | some stmt =>
    cases variables_declarations hrun with
    | VAR addr id type exp konst => exact ⟨_, st₁, s', rfl, trivial, h', hgrows⟩
    | VARLIST addr ids type exp konst => exact ⟨_, st₁, s', rfl, trivial, h', hgrows⟩
    | LIST addr block vec hvec =>
      have hnodes : (nodes_stmts [Stmt.LIST addr block vec] ++ nodes).Perm
          ([addr] ++ (nodes_stmts vec ++ nodes)) := by
        rw [nodes_stmts, nodes_stmts, Stmt.nodes, List.append_nil, ← List.append_assoc]
        exact List.perm_append_comm.append_right nodes
      have hdrops : drops_stmts [Stmt.LIST addr block vec] = drops_stmts vec := by
        rw [drops_stmts, drops_stmts, Stmt.drops, List.append_nil]
      have h₁ := h'.perm (.refl _) hnodes
      rw [Option.toList_some, hdrops] at h₁
      obtain ⟨s₂, h₂, hgrows₂⟩ := @Holds.released s₀ s' st₁ _ [addr] _ [] h₁
      refine ⟨vec, st₁.released [addr] [], s₂, ?_, trivial, ?_, hgrows.trans hgrows₂⟩
      · rw [Parser_New_Variables, assert_of hvec, ok_bind,
          State.free_ok (Frees.Mfree addr) h₁.owned.left, ok_bind]
      · rw [drops_module, nodes_module, released_all hvec]
        exact h₂

theorem Keeps.module {s' : Descs}
    (h : Keeps s₀ s' held nodes (__Parser_Do_Variables ids type exps konst st))
    (hgrows : Grows s s') : Yields s₀ s held nodes drops_module nodes_module (fun _ => True)
      (__Parser_Do_Variables ids type exps konst st >>= fun p => Parser_New_Variables p.1 p.2) := by
  have hafter := h.after hgrows
  obtain ⟨stmt, st', s'', hrun, -⟩ := h
  rw [hrun, ok_bind]
  exact hafter.added hrun

/-- A statement that is released alone is added to those of the module. -/
theorem Keeps.single {stmt : Stmt} (h : Keeps s₀ s held nodes (.ok (some stmt, st')))
    (halone : released stmt = [stmt]) :
    Yields s₀ s held nodes drops_module nodes_module (fun _ => True) (.ok ([stmt], st')) := by
  obtain ⟨stmt', st'', s', hrun, h', hgrows⟩ := h
  cases hrun
  refine ⟨[stmt], st', s', rfl, trivial, ?_, hgrows⟩
  rw [drops_module, nodes_module, List.flatMap_singleton, halone]
  exact h'

end variables_

namespace grammar

section imported

variable (extstbl : List CString)

/-- The type of a field too: no node takes a reference to it. -/
def Member.over : Member → List TypeDesc
  | .EMPTY => []
  | .FieldDeclaration _ type exp => drop (type_desc extstbl type) ++ over_opt extstbl exp
  | .FunctionDeclaration _ _ _ body => over_stmts extstbl body
  | .ProtoDeclaration _ _ _ _ => []

def over_members (members : List Member) : List TypeDesc := members.flatMap (Member.over extstbl)

/-- The super types too: no node takes a reference to them. -/
def ModuleStatement.over : ModuleStatement → List TypeDesc
  | .EMPTY => []
  | .VariableDeclaration _ _ exps => over_exprs extstbl exps
  | .ConstDeclaration _ _ exps => over_exprs extstbl exps
  | .FunctionDeclaration _ _ _ body => over_stmts extstbl body
  | .ProtoDeclaration _ _ _ => []
  | .TypeDeclaration _ _ super body =>
    (super.flatMap fun type => drop (type.desc extstbl)) ++ over_members extstbl body

def over_module (stmts : List ModuleStatement) : List TypeDesc :=
  stmts.flatMap (ModuleStatement.over extstbl)

def Member.Defined : Member → Prop
  | .EMPTY => True
  | .FieldDeclaration _ type exp => TypeDefined extstbl type ∧ Defined_opt extstbl exp
  | .FunctionDeclaration _ args rets body =>
    args.Defined extstbl ∧ rets.Defined extstbl ∧ Defined_stmts extstbl body
  | .ProtoDeclaration _ _ args rets => args.Defined extstbl ∧ rets.Defined extstbl

def ModuleStatement.Defined : ModuleStatement → Prop
  | .EMPTY => True
  | .VariableDeclaration _ type exps => TypeDefined extstbl type ∧ Defined_exprs extstbl exps
  | .ConstDeclaration _ type exps => TypeDefined extstbl type ∧ Defined_exprs extstbl exps
  | .FunctionDeclaration _ args rets body =>
    args.Defined extstbl ∧ rets.Defined extstbl ∧ Defined_stmts extstbl body
  | .ProtoDeclaration _ args rets => args.Defined extstbl ∧ rets.Defined extstbl
  | .TypeDeclaration _ _ _ body => ∀ member ∈ body, member.Defined extstbl

def Defined_module (stmts : List ModuleStatement) : Prop :=
  ∀ stmt ∈ stmts, stmt.Defined extstbl

end imported

section build

variable {extstbl : List CString} {s₀ s : Descs} {st : State} {held : List TypeDesc}
  {nodes : List Nat}

theorem build_func_holds (args rets : IDTypes) (body : List Statement)
    (h : Holds s₀ st s (over_stmts extstbl body ++ held) nodes)
    (hdefined : args.Defined extstbl ∧ rets.Defined extstbl ∧ Defined_stmts extstbl body) :
    ∃ args' rets' body' st₁ st₂ st₃ s', args.build extstbl st = .ok (args', st₁) ∧
      rets.build extstbl st₁ = .ok (rets', st₂) ∧
        build_stmts extstbl body st₂ = .ok (body', st₃) ∧
          Holds s₀ st₃ s' (drops_stmts body' ++ (IdType.drops args' ++ IdType.drops rets') ++ held)
            (nodes_stmts body' ++ nodes) ∧ Grows s s' := by
  obtain ⟨args', rets', st₁, st₂, s₂, hrun₁, hrun₂, h₂, hgrows₂⟩ :=
    build_types_holds args rets h ⟨hdefined.1, hdefined.2.1⟩
  obtain ⟨body', st₃, s₃, hrun₃, -, h₃, hgrows₃⟩ := build_stmts_holds body
    (h₂.perm (List.perm_append_comm_assoc _ _ _) (.refl _)) hdefined.2.2
  rw [← List.append_assoc] at h₃
  exact ⟨args', rets', body', st₁, st₂, st₃, s₃, hrun₁, hrun₂, hrun₃, h₃,
    hgrows₂.trans hgrows₃⟩

/-- A function keeps what its types and its statements hold. -/
theorem Holds.func {s' : Descs} {args rets : List IdType} {body : List Stmt}
    (h : Holds s₀ st s' (drops_stmts body ++ (IdType.drops args ++ IdType.drops rets) ++ held)
      (nodes_stmts body ++ nodes)) (hgrows : Grows s s') (id : Ident) :
    Keeps s₀ s held nodes
      (.ok (some (Stmt_From_FuncDecl id args rets body st).1,
        (Stmt_From_FuncDecl id args rets body st).2)) := by
  refine h.stmt hgrows (fun addr => .FUNC addr id args rets body) (fun addr => ?_) fun addr => ?_
  · rw [Stmt.drops, ← List.append_assoc (IdType.drops args)]
    exact List.perm_append_comm
  · rw [Stmt.nodes]
    exact (List.perm_append_singleton _ _).symm

theorem Holds.proto_decl {s' : Descs} {args rets : List IdType}
    (h : Holds s₀ st s' (IdType.drops args ++ IdType.drops rets ++ held) nodes)
    (hgrows : Grows s s') (native : Bool) (id : Ident) :
    Keeps s₀ s held nodes (.ok (some (Stmt_From_ProtoDecl native id args rets st).1,
      (Stmt_From_ProtoDecl native id args rets st).2)) := by
  refine @Holds.stmt s₀ s s' st held nodes _ [] h hgrows
    (fun addr => .PROTO addr native id args rets) (fun addr => ?_) fun addr => ?_
  · rw [Stmt.drops]
  · rw [Stmt.nodes]

theorem Member.build_holds (member : Member)
    (h : Holds s₀ st s (member.over extstbl ++ held) nodes) (hdefined : member.Defined extstbl) :
    Keeps s₀ s held nodes (member.build extstbl st) := by
  cases member with
  | EMPTY => exact ⟨none, st, s, rfl, h, .refl s⟩
  | FieldDeclaration id type exp =>
    rw [Member.over, List.append_assoc] at h
    obtain ⟨st₁, s₁, hrun₁, h₁, hgrows₁, -⟩ := build_type_holds type h hdefined.1
    obtain ⟨exp', st₂, s₂, hrun₂, -, h₂, hgrows₂⟩ := build_opt_holds exp
      (h₁.perm (List.perm_append_comm_assoc _ _ _) (.refl _)) hdefined.2
    rw [← List.append_assoc] at h₂
    rw [Member.build, hrun₁, ok_bind]
    dsimp only
    rw [hrun₂, ok_bind]
    refine h₂.stmt (hgrows₁.trans hgrows₂) (fun addr => .VAR addr id _ exp' false)
      (fun addr => ?_) fun addr => ?_
    · rw [Stmt.drops]
      exact List.perm_append_comm
    · rw [Stmt.nodes]
      exact (List.perm_append_singleton _ _).symm
  | FunctionDeclaration id args rets body =>
    obtain ⟨args', rets', body', st₁, st₂, st₃, s', hrun₁, hrun₂, hrun₃, h', hgrows⟩ :=
      build_func_holds args rets body h hdefined
    rw [Member.build, hrun₁, ok_bind]
    dsimp only
    rw [hrun₂, ok_bind]
    dsimp only
    rw [hrun₃, ok_bind]
    exact Holds.func h' hgrows id
  | ProtoDeclaration native id args rets =>
    obtain ⟨args', rets', st₁, st₂, s', hrun₁, hrun₂, h', hgrows⟩ :=
      build_types_holds args rets h hdefined
    rw [Member.build, hrun₁, ok_bind]
    dsimp only
    rw [hrun₂, ok_bind]
    exact Holds.proto_decl h' hgrows native id

theorem build_members_holds (members : List Member)
    (h : Holds s₀ st s (over_members extstbl members ++ held) nodes)
    (hdefined : ∀ member ∈ members, member.Defined extstbl) :
    Yields s₀ s held nodes drops_stmts nodes_stmts (fun _ => True)
      (build_members extstbl members st) := by
  induction members generalizing st s held nodes with
  | nil => exact ⟨[], st, s, rfl, trivial, h, .refl s⟩
  | cons member members ih =>
    obtain ⟨hmember, hmembers⟩ := List.forall_mem_cons.mp hdefined
    rw [over_members, List.flatMap_cons, List.append_assoc] at h
    obtain ⟨stmt, st₁, s₁, hrun₁, h₁, hgrows₁⟩ := member.build_holds h hmember
    obtain ⟨vec, st₂, s₂, hrun₂, -, h₂, hgrows₂⟩ := ih
      (h₁.perm (List.perm_append_comm_assoc _ _ _) (.refl _)) hmembers
    have h₃ := h₂.perm (List.perm_append_comm_assoc _ _ _) (List.perm_append_comm_assoc _ _ _)
    rw [← List.append_assoc, ← List.append_assoc, ← drops_stmts_append, ← nodes_stmts_append] at h₃
    rw [build_members, hrun₁, ok_bind]
    dsimp only
    rw [hrun₂, ok_bind]
    exact ⟨stmt.toList ++ vec, st₂, s₂, rfl, trivial, h₃, hgrows₁.trans hgrows₂⟩

/-- No reference is taken to the super types. -/
theorem build_super_holds (super : List KlassType) (h : Holds s₀ st s held nodes) :
    ∃ descs st' s', build_super extstbl super st = (descs, st') ∧
      descs.flatMap drop = (super.flatMap fun type => drop (type.desc extstbl)) ∧
        Holds s₀ st' s' held nodes ∧ Grows s s' := by
  induction super generalizing st s with
  | nil => exact ⟨[], st, s, rfl, rfl, h, .refl s⟩
  | cons type super ih =>
    obtain ⟨st₁, s₁, hrun₁, h₁, hgrows₁, -⟩ := type.build_holds h
    obtain ⟨descs, st₂, s₂, hrun₂, hdescs, h₂, hgrows₂⟩ := ih h₁
    refine ⟨type.desc extstbl :: descs, st₂, s₂, ?_, ?_, h₂, hgrows₁.trans hgrows₂⟩
    · rw [build_super, hrun₁]
      dsimp only
      rw [hrun₂]
    · rw [List.flatMap_cons, List.flatMap_cons, hdescs]

/-- The members of a class are released before it. -/
theorem Holds.klass {s' : Descs} {super : List (Option TypeDesc)} {body : List Stmt}
    (h : Holds s₀ st s' (drops_stmts body ++ super.flatMap drop ++ held) (nodes_stmts body ++ nodes))
    (hgrows : Grows s s') (trait : Bool) (id : Ident) :
    Yields s₀ s held nodes drops_module nodes_module (fun _ => True)
      (.ok ([(Stmt_From_Klass trait id super body st).1],
        (Stmt_From_Klass trait id super body st).2)) := by
  have hklass : ∀ klass : Stmt, released klass = body ++ [klass] →
      klass.drops = super.flatMap drop → klass.nodes = [st.Malloc.1] →
        Yields s₀ s held nodes drops_module nodes_module (fun _ => True)
          (.ok ([klass], st.Malloc.2)) := by
    intro klass hreleased hdrops hnodes
    refine ⟨[klass], st.Malloc.2, s', rfl, trivial, ?_, hgrows⟩
    rw [drops_module, nodes_module, List.flatMap_singleton, hreleased, drops_stmts_append,
      nodes_stmts_append, drops_stmts, drops_stmts, nodes_stmts, nodes_stmts, hdrops, hnodes,
      List.append_nil, List.append_nil, List.append_assoc (nodes_stmts body)]
    exact h.malloc.perm (.refl _) List.perm_middle.symm
  cases trait with
  | false =>
    exact hklass (.CLASS st.Malloc.1 id super body) rfl (by rw [Stmt.drops]) (by rw [Stmt.nodes])
  | true =>
    exact hklass (.TRAIT st.Malloc.1 id super body) rfl (by rw [Stmt.drops]) (by rw [Stmt.nodes])

theorem ModuleStatement.build_holds (stmt : ModuleStatement)
    (h : Holds s₀ st s (stmt.over extstbl ++ held) nodes) (hdefined : stmt.Defined extstbl) :
    Yields s₀ s held nodes drops_module nodes_module (fun _ => True) (stmt.build extstbl st) := by
  cases stmt with
  | EMPTY => exact ⟨[], st, s, rfl, trivial, h, .refl s⟩
  | VariableDeclaration ids type exps | ConstDeclaration ids type exps =>
    obtain ⟨st₁, s₁, hrun₁, h₁, hgrows₁, hmem⟩ := build_type_holds type h hdefined.1
    obtain ⟨exps', st₂, s₂, hrun₂, -, h₂, hgrows₂⟩ := build_exprs_holds exps h₁ hdefined.2
    rw [ModuleStatement.build, hrun₁, ok_bind]
    dsimp only
    rw [hrun₂, ok_bind]
    exact (h₂.variables fun t ht => hgrows₂.mem (hmem t ht)).module (hgrows₁.trans hgrows₂)
  | FunctionDeclaration id args rets body =>
    obtain ⟨args', rets', body', st₁, st₂, st₃, s', hrun₁, hrun₂, hrun₃, h', hgrows⟩ :=
      build_func_holds args rets body h hdefined
    rw [ModuleStatement.build, hrun₁, ok_bind]
    dsimp only
    rw [hrun₂, ok_bind]
    dsimp only
    rw [hrun₃, ok_bind]
    exact (Holds.func h' hgrows id).single rfl
  | ProtoDeclaration id args rets =>
    obtain ⟨args', rets', st₁, st₂, s', hrun₁, hrun₂, h', hgrows⟩ :=
      build_types_holds args rets h hdefined
    rw [ModuleStatement.build, hrun₁, ok_bind]
    dsimp only
    rw [hrun₂, ok_bind]
    exact (Holds.proto_decl h' hgrows true id).single rfl
  | TypeDeclaration trait id super body =>
    rw [ModuleStatement.over, List.append_assoc] at h
    obtain ⟨descs, st₁, s₁, hrun₁, hdescs, h₁, hgrows₁⟩ := build_super_holds super h
    obtain ⟨body', st₂, s₂, hrun₂, -, h₂, hgrows₂⟩ := build_members_holds body
      (h₁.perm (List.perm_append_comm_assoc _ _ _) (.refl _)) hdefined
    rw [← hdescs, ← List.append_assoc] at h₂
    rw [ModuleStatement.build, hrun₁]
    dsimp only
    rw [hrun₂, ok_bind]
    exact Holds.klass h₂ (hgrows₁.trans hgrows₂) trait id

theorem build_module_holds (stmts : List ModuleStatement)
    (h : Holds s₀ st s (over_module extstbl stmts ++ held) nodes)
    (hdefined : Defined_module extstbl stmts) :
    Yields s₀ s held nodes drops_module nodes_module (fun _ => True)
      (build_module extstbl stmts st) := by
  induction stmts generalizing st s held nodes with
  | nil => exact ⟨[], st, s, rfl, trivial, h, .refl s⟩
  | cons stmt stmts ih =>
    obtain ⟨hstmt, hstmts⟩ := List.forall_mem_cons.mp hdefined
    rw [over_module, List.flatMap_cons, List.append_assoc] at h
    obtain ⟨vec, st₁, s₁, hrun₁, -, h₁, hgrows₁⟩ := stmt.build_holds h hstmt
    obtain ⟨vec', st₂, s₂, hrun₂, -, h₂, hgrows₂⟩ := ih
      (h₁.perm (List.perm_append_comm_assoc _ _ _) (.refl _)) hstmts
    have h₃ := h₂.perm (List.perm_append_comm_assoc _ _ _) (List.perm_append_comm_assoc _ _ _)
    rw [← List.append_assoc, ← List.append_assoc, ← drops_module_append, ← nodes_module_append]
      at h₃
    rw [build_module, hrun₁, ok_bind]
    dsimp only
    rw [hrun₂, ok_bind]
    exact ⟨vec ++ vec', st₂, s₂, rfl, trivial, h₃, hgrows₁.trans hgrows₂⟩

end build

end grammar

end koala.ast
