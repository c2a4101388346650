import Koala.Ast.Declared
import Koala.Ast.Held

open koala.parser koala.typedesc

namespace koala.ast

set_option linter.style.nameCheck false

/-- Where dimensions are given, the descriptor of an array type. -/
def arrays : Option TypeDesc → List TypeDesc
  | some (.array dims base) => [.array dims base]
  | _ => []

namespace grammar

def Expression.isID : Expression → Bool
  | .ID .. => true
  | _ => false

variable (extstbl : List CString)

mutual

/-- The array types that are given with dimensions: `Parser_New_Array` gives back a
reference to each that no node has taken. -/
def Expression.over : Expression → List TypeDesc
  | .ID _ _ => []
  | .CONSTANT _ _ => []
  | .TOKEN_NIL _ => []
  | .SELF _ => []
  | .SUPER _ => []
  | .AttributeExpression _ left _ => left.over
  | .CallExpression _ left args => left.over ++ over_exprs args
  | .SubScriptExpression _ left index => left.over ++ index.over
  | .SliceExpression _ left start stop => left.over ++ (over_opt start ++ over_opt stop)
  | .UnaryExpression _ _ exp => exp.over
  | .BinaryExpression _ _ left right => left.over ++ right.over
  | .ArrayOrSetInitializer init => init.over
  | .MapInitializer init => init.over
  | .ArrayCreationExpression _ dims type init =>
    over_exprs dims ++ (over_array_init init ++ arrays (type.desc extstbl))
  | .ArrayDimsExpression _ _ _ init => over_array_init init
  | .SetCreationExpression _ _ init => over_array_init init
  | .MapCreationExpression _ _ _ init => over_map_init init
  | .AnonyFuncExpression _ _ _ body => over_stmts body

def over_opt : Option Expression → List TypeDesc
  | none => []
  | some exp => exp.over

def over_exprs : List Expression → List TypeDesc
  | [] => []
  | exp :: exps => exp.over ++ over_exprs exps

def ArrayInit.over : ArrayInit → List TypeDesc
  | .mk _ vec => over_exprs vec

def over_array_init : Option ArrayInit → List TypeDesc
  | none => []
  | some init => init.over

def MapInit.over : MapInit → List TypeDesc
  | .mk _ vec => over_entries vec

def over_map_init : Option MapInit → List TypeDesc
  | none => []
  | some init => init.over

def MapKeyValue.over : MapKeyValue → List TypeDesc
  | .mk _ key val => key.over ++ val.over

def over_entries : List MapKeyValue → List TypeDesc
  | [] => []
  | entry :: entries => entry.over ++ over_entries entries

def Statement.over : Statement → List TypeDesc
  | .EMPTY => []
  | .ExprStatement exp => exp.over
  | .VariableDeclaration _ _ exps => over_exprs exps
  | .VariableDeclarationTypeless ids exps => over_exprs ids ++ over_exprs exps
  | .Assignment left right => over_exprs left ++ over_exprs right
  | .CompAssignment _ _ left right => left.over ++ right.over
  | .ReturnStatement _ exps => over_exprs exps
  | .Block stmts => over_stmts stmts

def over_stmts : List Statement → List TypeDesc
  | [] => []
  | stmt :: stmts => stmt.over ++ over_stmts stmts

end

/-- A type that may be left out. -/
def type_desc (type : Option Ty) : Option TypeDesc := type.bind (Ty.desc extstbl)

def TypeDefined : Option Ty → Prop
  | none => True
  | some type => type.Defined extstbl

mutual

/-- No `NULL` is followed, and no left side of several `:=` is freed with the list
of its declarations: if the first of as many left sides is an identifier, all are. -/
def Expression.Defined : Expression → Prop
  | .ID _ _ => True
  | .CONSTANT _ _ => True
  | .TOKEN_NIL _ => True
  | .SELF _ => True
  | .SUPER _ => True
  | .AttributeExpression _ left _ => left.Defined
  | .CallExpression _ left args => left.Defined ∧ Defined_exprs args
  | .SubScriptExpression _ left index => left.Defined ∧ index.Defined
  | .SliceExpression _ left start stop => left.Defined ∧ Defined_opt start ∧ Defined_opt stop
  | .UnaryExpression _ _ exp => exp.Defined
  | .BinaryExpression _ _ left right => left.Defined ∧ right.Defined
  | .ArrayOrSetInitializer init => init.Defined
  | .MapInitializer init => init.Defined
  | .ArrayCreationExpression _ dims type init => Defined_exprs dims ∧ type.Defined extstbl ∧
    (type.desc extstbl).isSome = true ∧ Defined_array_init init
  | .ArrayDimsExpression _ _ base init => base.Defined extstbl ∧
    (base.desc extstbl).isSome = true ∧ Defined_array_init init
  | .SetCreationExpression _ key init =>
    (BaseType.SetType key).Defined extstbl ∧ Defined_array_init init
  | .MapCreationExpression _ key val init =>
    (BaseType.MapType key val).Defined extstbl ∧ Defined_map_init init
  | .AnonyFuncExpression _ args rets body =>
    args.Defined extstbl ∧ rets.Defined extstbl ∧ Defined_stmts body

def Defined_opt : Option Expression → Prop
  | none => True
  | some exp => exp.Defined

def Defined_exprs : List Expression → Prop
  | [] => True
  | exp :: exps => exp.Defined ∧ Defined_exprs exps

def ArrayInit.Defined : ArrayInit → Prop
  | .mk _ vec => Defined_exprs vec

def Defined_array_init : Option ArrayInit → Prop
  | none => True
  | some init => init.Defined

def MapInit.Defined : MapInit → Prop
  | .mk _ vec => Defined_entries vec

def Defined_map_init : Option MapInit → Prop
  | none => True
  | some init => init.Defined

def MapKeyValue.Defined : MapKeyValue → Prop
  | .mk _ key val => key.Defined ∧ val.Defined

def Defined_entries : List MapKeyValue → Prop
  | [] => True
  | entry :: entries => entry.Defined ∧ Defined_entries entries

/-- The grammar makes no empty list of expressions. -/
def Statement.Defined : Statement → Prop
  | .EMPTY => True
  | .ExprStatement exp => exp.Defined
  | .VariableDeclaration _ type exps => TypeDefined extstbl type ∧ Defined_exprs exps
  | .VariableDeclarationTypeless ids exps => Defined_exprs ids ∧ Defined_exprs exps ∧
    (ids = [] ↔ exps = []) ∧ (ids.length = exps.length →
      (∃ e ∈ ids.head?, e.isID = true) → ∀ e ∈ ids, e.isID = true)
  | .Assignment left right => Defined_exprs left ∧ Defined_exprs right ∧ (right = [] → left = [])
  | .CompAssignment _ _ left right => left.Defined ∧ right.Defined
  | .ReturnStatement _ exps => Defined_exprs exps
  | .Block stmts => Defined_stmts stmts

def Defined_stmts : List Statement → Prop
  | [] => True
  | stmt :: stmts => stmt.Defined ∧ Defined_stmts stmts

end

end grammar

section yields

variable {α β : Type} {s₀ s s' : Descs} {st st' : State} {held : List TypeDesc} {nodes : List Nat}

/-- A tree is made that holds the references and the nodes that are owned. -/
def Yields (s₀ s : Descs) (held : List TypeDesc) (nodes : List Nat) (drops : α → List TypeDesc)
    (owned : α → List Nat) (good : α → Prop) (r : Res (α × State)) : Prop :=
  ∃ a st' s', r = .ok (a, st') ∧ good a ∧ Holds s₀ st' s' (drops a ++ held) (owned a ++ nodes) ∧
    Grows s s'

/-- The node of an expression is made of what was made before. -/
theorem Holds.node {refs : List TypeDesc} {owned : List Nat} {desc : Option TypeDesc}
    {good : Expr → Prop} (h : Holds s₀ st' s' (refs ++ held) (owned ++ nodes)) (hgrows : Grows s s')
    (hdesc : ∀ t ∈ desc, t ∈ s'.table) (pos : Position) (mk : Head → Expr)
    (hgood : ∀ hd, good (mk hd))
    (hdrops : ∀ hd, hd.desc = desc → (drop desc ++ refs).Perm (mk hd).drops)
    (howned : ∀ hd, (hd.addr :: owned).Perm (mk hd).nodes) :
    Yields s₀ s held nodes Expr.drops Expr.nodes good
      (.ok (mk (ast.new_expr pos desc st').1, (ast.new_expr pos desc st').2)) := by
  obtain ⟨hd, st₁, s₁, hrun, hhd, h₁, hgrows₁⟩ := h.new_expr pos hdesc
  refine ⟨mk hd, st₁, s₁, by rw [hrun], hgood hd, h₁.perm ?_ ?_, hgrows.trans hgrows₁⟩
  · rw [← List.append_assoc]
    exact (hdrops hd hhd).append_right held
  · rw [← List.cons_append]
    exact (howned hd).append_right nodes

/-- A node that is not made of others. -/
theorem Holds.leaf {desc : Option TypeDesc} {good : Expr → Prop} (h : Holds s₀ st s held nodes)
    (hdesc : ∀ t ∈ desc, t ∈ s.table) (pos : Position) (mk : Head → Expr)
    (hgood : ∀ hd, good (mk hd)) (hdrops : ∀ hd, (mk hd).drops = drop hd.desc)
    (howned : ∀ hd, (mk hd).nodes = [hd.addr]) :
    Yields s₀ s held nodes Expr.drops Expr.nodes good
      (.ok (mk (ast.new_expr pos desc st).1, (ast.new_expr pos desc st).2)) := by
  refine @Holds.node s₀ s s st held nodes [] [] desc good h (.refl s) hdesc pos mk hgood
    (fun hd hhd => ?_) fun hd => ?_
  · rw [hdrops, hhd, List.append_nil]
  · rw [howned]

/-- The descriptor of an expression is held. -/
theorem head_desc_mem (e : Expr) : ∀ t ∈ e.head.desc, t ∈ e.drops := by
  intro t ht
  cases e <;> simp_all [Expr.head, Expr.drops, drop]

/-- What `Parser_New_Array` does with a type that is known. -/
theorem Holds.new_array {t : TypeDesc} (h : Holds s₀ st s (arrays (some t) ++ held) nodes)
    (ht : t ∈ s.table) (pos : Position) (dims : List Expr) (listExp : Option Expr) :
    ∃ hd n base st' s', Parser_New_Array pos (some dims) 0 t listExp st =
      .ok (.ARRAY hd dims n (some base) listExp, st') ∧ hd.desc = none ∧
        Holds s₀ st' s' (base :: held) (hd.addr :: nodes) ∧ Grows s s' := by
  have hplain : arrays (some t) = [] → Parser_New_Array pos (some dims) 0 t listExp st =
      .ok (.ARRAY (ast.new_expr pos none (st.TYPE_INCREF (some t))).1 dims 0 (some t) listExp,
        (ast.new_expr pos none (st.TYPE_INCREF (some t))).2) := by
    intro hnone
    cases t <;> first | rfl | cases hnone
  have hmem : ∀ u ∈ some t, u ∈ s.table := by
    rintro u ⟨⟩
    exact ht
  cases t with
  | array n base =>
    have hbase := h.counted.parts_mem _ ht base List.mem_cons_self
    have hbase' : ∀ u ∈ some base, u ∈ s.table := by
      rintro u ⟨⟩
      exact hbase
    obtain ⟨s₁, h₁, hgrows₁⟩ := h.incref hbase'
    have h₁' := h₁.perm (List.perm_append_comm_assoc _ _ _) (.refl _)
    obtain ⟨s₂, h₂, hgrows₂⟩ := @Holds.decref s₀ s₁ _ _ _ (some (.array n base)) h₁'
    obtain ⟨hd, st₃, s₃, hrun, hhd, h₃, hgrows₃⟩ := @Holds.new_expr s₀ s₂ _ _ _ none h₂ pos nofun
    refine ⟨hd, n.toInt.toNat, base, st₃, s₃, ?_, hhd, h₃, (hgrows₁.trans hgrows₂).trans hgrows₃⟩
    rw [Parser_New_Array, assert_of rfl, ok_bind]
    dsimp only
    rw [hrun]
  | _ =>
    obtain ⟨s₁, h₁, hgrows₁⟩ := h.incref hmem
    obtain ⟨hd, st₂, s₂, hrun, hhd, h₂, hgrows₂⟩ := @Holds.new_expr s₀ s₁ _ _ _ none h₁ pos nofun
    refine ⟨hd, 0, _, st₂, s₂, ?_, hhd, h₂, hgrows₁.trans hgrows₂⟩
    rw [hplain rfl, hrun]

theorem Holds.new_array_nulls {t : TypeDesc} (h : Holds s₀ st s held nodes) (ht : t ∈ s.table)
    (hnone : arrays (some t) = []) (pos : Position) (dims : Nat) (listExp : Option Expr) :
    ∃ hd st' s', Parser_New_Array pos none (dims + 1) t listExp st =
      .ok (.ARRAY hd [] (dims + 1) (some t) listExp, st') ∧ hd.desc = none ∧
        Holds s₀ st' s' (t :: held) (hd.addr :: nodes) ∧ Grows s s' := by
  have hrun : Parser_New_Array pos none (dims + 1) t listExp st =
      .ok (.ARRAY (ast.new_expr pos none (st.TYPE_INCREF (some t))).1 [] (dims + 1) (some t) listExp,
        (ast.new_expr pos none (st.TYPE_INCREF (some t))).2) := by
    cases t <;> first | rfl | cases hnone
  have hmem : ∀ u ∈ some t, u ∈ s.table := by
    rintro u ⟨⟩
    exact ht
  obtain ⟨s₁, h₁, hgrows₁⟩ := h.incref hmem
  obtain ⟨hd, st₂, s₂, hnew, hhd, h₂, hgrows₂⟩ := @Holds.new_expr s₀ s₁ _ _ _ none h₁ pos nofun
  refine ⟨hd, st₂, s₂, ?_, hhd, h₂, hgrows₁.trans hgrows₂⟩
  rw [hrun, hnew]

end yields

/-- Only a list of brackets makes an array type. -/
theorem grammar.BaseType.arrays_desc (extstbl : List CString) (base : grammar.BaseType) :
    arrays (base.desc extstbl) = [] := by
  cases base with
  | PrimitiveType type => rw [grammar.BaseType.desc, arrays]; exact nofun
  | KlassType klass =>
    rw [grammar.BaseType.desc, grammar.KlassType.desc]
    split
    · rfl
    · split <;> rfl
  | FunctionType params rets =>
    rw [grammar.BaseType.desc]
    split <;> rfl
  | MapType key val =>
    rw [grammar.BaseType.desc]
    split <;> rfl
  | SetType key =>
    rw [grammar.BaseType.desc]
    cases key.desc extstbl <;> rfl

end koala.ast
