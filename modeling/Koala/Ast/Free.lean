import Koala.Ast.Tree
import Koala.Basic
import Mathlib.Data.List.Basic

open koala.parser koala.typedesc

namespace koala.ast

set_option linter.style.nameCheck false

/-- The reference that a node gives back. -/
def drop (desc : Option TypeDesc) : List TypeDesc := desc.toList

def IdType.drops (vec : List IdType) : List TypeDesc := vec.flatMap fun idtype => drop idtype.type

mutual

/-- The addresses of the nodes of an expression. -/
def Expr.nodes : Expr → List Nat
  | .NIL h => [h.addr]
  | .SELF h => [h.addr]
  | .SUPER h => [h.addr]
  | .CONST h _ => [h.addr]
  | .ID h _ => [h.addr]
  | .UNARY h _ exp => exp.nodes ++ [h.addr]
  | .BINARY h _ lexp rexp => lexp.nodes ++ (rexp.nodes ++ [h.addr])
  | .ATTRIBUTE h _ left => left.nodes ++ [h.addr]
  | .SUBSCRIPT h index left => index.nodes ++ (left.nodes ++ [h.addr])
  | .CALL h args left => nodes_list args ++ (left.nodes ++ [h.addr])
  | .SLICE h start stop left => nodes_opt start ++ (nodes_opt stop ++ (left.nodes ++ [h.addr]))
  | .ARRAY_LIST h vec => nodes_list vec ++ [h.addr]
  | .MAP_LIST h vec => nodes_list vec ++ [h.addr]
  | .MAP_ENTRY h key val => key.nodes ++ (val.nodes ++ [h.addr])
  | .ARRAY h dims _ _ listExp => nodes_list dims ++ (nodes_opt listExp ++ [h.addr])
  | .MAP h _ listExp => nodes_opt listExp ++ [h.addr]
  | .SET h _ listExp => nodes_opt listExp ++ [h.addr]
  | .ANONY_FUNC h _ _ body => nodes_stmts body ++ [h.addr]

def nodes_opt : Option Expr → List Nat
  | none => []
  | some exp => exp.nodes

def nodes_list : List Expr → List Nat
  | [] => []
  | exp :: vec => exp.nodes ++ nodes_list vec

/-- The addresses of the nodes that are freed with a statement: those of the
members of a class are not. -/
def Stmt.nodes : Stmt → List Nat
  | .VAR addr _ _ exp _ => nodes_opt exp ++ [addr]
  | .VARLIST addr _ _ exp _ => exp.nodes ++ [addr]
  | .ASSIGN addr _ left right => left.nodes ++ (right.nodes ++ [addr])
  | .ASSIGNLIST addr left right => nodes_list left ++ (right.nodes ++ [addr])
  | .FUNC addr _ _ _ body => nodes_stmts body ++ [addr]
  | .PROTO addr _ _ _ _ => [addr]
  | .EXPR addr exp => exp.nodes ++ [addr]
  | .RETURN addr _ exps => nodes_list exps ++ [addr]
  | .LIST addr _ vec => nodes_stmts vec ++ [addr]
  | .CLASS addr _ _ _ => [addr]
  | .TRAIT addr _ _ _ => [addr]

def nodes_stmts : List Stmt → List Nat
  | [] => []
  | stmt :: vec => stmt.nodes ++ nodes_stmts vec

end

mutual

/-- The references that are given back with an expression. -/
def Expr.drops : Expr → List TypeDesc
  | .NIL h => drop h.desc
  | .SELF h => drop h.desc
  | .SUPER h => drop h.desc
  | .CONST h _ => drop h.desc
  | .ID h _ => drop h.desc
  | .UNARY h _ exp => exp.drops ++ drop h.desc
  | .BINARY h _ lexp rexp => lexp.drops ++ (rexp.drops ++ drop h.desc)
  | .ATTRIBUTE h _ left => left.drops ++ drop h.desc
  | .SUBSCRIPT h index left => index.drops ++ (left.drops ++ drop h.desc)
  | .CALL h args left => drops_list args ++ (left.drops ++ drop h.desc)
  | .SLICE h start stop left => drops_opt start ++ (drops_opt stop ++ (left.drops ++ drop h.desc))
  | .ARRAY_LIST h vec => drops_list vec ++ drop h.desc
  | .MAP_LIST h vec => drops_list vec ++ drop h.desc
  | .MAP_ENTRY h key val => key.drops ++ (val.drops ++ drop h.desc)
  | .ARRAY h dims _ base listExp =>
    drops_list dims ++ (drop base ++ (drops_opt listExp ++ drop h.desc))
  | .MAP h type listExp => drop type ++ (drops_opt listExp ++ drop h.desc)
  | .SET h type listExp => drop type ++ (drops_opt listExp ++ drop h.desc)
  | .ANONY_FUNC h args rets body =>
    IdType.drops args ++ (IdType.drops rets ++ (drops_stmts body ++ drop h.desc))

def drops_opt : Option Expr → List TypeDesc
  | none => []
  | some exp => exp.drops

def drops_list : List Expr → List TypeDesc
  | [] => []
  | exp :: vec => exp.drops ++ drops_list vec

/-- The references that are given back with a statement. -/
def Stmt.drops : Stmt → List TypeDesc
  | .VAR _ _ type exp _ => drop type ++ drops_opt exp
  | .VARLIST _ _ type exp _ => drop type ++ exp.drops
  | .ASSIGN _ _ left right => left.drops ++ right.drops
  | .ASSIGNLIST _ left right => drops_list left ++ right.drops
  | .FUNC _ _ args rets body => IdType.drops args ++ (IdType.drops rets ++ drops_stmts body)
  | .PROTO _ _ _ args rets => IdType.drops args ++ IdType.drops rets
  | .EXPR _ exp => exp.drops
  | .RETURN _ _ exps => drops_list exps
  | .LIST _ _ vec => drops_stmts vec
  | .CLASS _ _ super _ => super.flatMap drop
  | .TRAIT _ _ super _ => super.flatMap drop

def drops_stmts : List Stmt → List TypeDesc
  | [] => []
  | stmt :: vec => stmt.drops ++ drops_stmts vec

end

/-- The memory after some nodes were freed, with the references they gave back. -/
def Memory.release (m : Memory) (nodes : List Nat) (drops : List TypeDesc) : Memory :=
  { m with freed := nodes.reverse ++ m.freed, changes := m.changes ++ drops.map .DECREF }

/-- Where the nodes are distinct and none was freed before, `f` frees each once. -/
def Frees (f : Memory → Res Memory) (nodes : List Nat) (drops : List TypeDesc) : Prop :=
  ∀ m : Memory, nodes.Nodup → (∀ a ∈ nodes, a ∉ m.freed) → f m = .ok (m.release nodes drops)

section frees

variable {f g : Memory → Res Memory} {nodes nodes' : List Nat} {drops drops' : List TypeDesc}

theorem Memory.release_release (m : Memory) :
    (m.release nodes drops).release nodes' drops' =
      m.release (nodes ++ nodes') (drops ++ drops') := by
  simp [Memory.release]

theorem Memory.release_nil (m : Memory) : m.release [] [] = m := by
  simp [Memory.release]

theorem Memory.TYPE_DECREF_eq (m : Memory) (desc : Option TypeDesc) :
    m.TYPE_DECREF desc = m.release [] (drop desc) := rfl

theorem Frees.ok : Frees Except.ok [] [] := by
  intro m _ _
  rw [m.release_nil]

theorem Frees.bind (hf : Frees f nodes drops) (hg : Frees g nodes' drops') :
    Frees (fun m => f m >>= g) (nodes ++ nodes') (drops ++ drops') := by
  intro m hnodup hlive
  obtain ⟨hnodup₁, hnodup₂, hne⟩ := List.nodup_append.mp hnodup
  have hfirst := hf m hnodup₁ fun a ha => hlive a (List.mem_append_left _ ha)
  dsimp only
  rw [hfirst, ok_bind, ← m.release_release]
  apply hg _ hnodup₂
  intro a ha hfreed
  rcases List.mem_append.mp hfreed with hfreed | hfreed
  · exact hne a (List.mem_reverse.mp hfreed) a ha rfl
  · exact hlive a (List.mem_append_right _ ha) hfreed

/-- References are given back first. -/
theorem Frees.after (hf : Frees f nodes drops) (first : List TypeDesc) :
    Frees (fun m => f (m.release [] first)) nodes (first ++ drops) := by
  intro m hnodup hlive
  have hrun := hf (m.release [] first) hnodup hlive
  rw [m.release_release, List.nil_append] at hrun
  exact hrun

theorem Memory.touch_ok {m : Memory} {addr : Nat} (hlive : addr ∉ m.freed) :
    m.touch addr = .ok m := if_neg hlive

theorem Frees.Mfree (addr : Nat) : Frees (Memory.Mfree addr) [addr] [] := by
  intro m _ hlive
  unfold Memory.Mfree
  rw [Memory.touch_ok (hlive addr List.mem_cons_self), ok_bind]
  simp [Memory.release]

theorem Frees.free_expr (h : Head) : Frees (free_expr h) [h.addr] (drop h.desc) := by
  have hfree := (Frees.Mfree h.addr).after (drop h.desc)
  rw [List.append_nil] at hfree
  exact hfree

/-- A node is used before it is freed. -/
theorem Frees.touch {addr : Nat} (hf : Frees f nodes drops) (hmem : addr ∈ nodes) :
    Frees (fun m => m.touch addr >>= f) nodes drops := by
  intro m hnodup hlive
  dsimp only
  rw [Memory.touch_ok (hlive addr hmem), ok_bind]
  exact hf m hnodup hlive

theorem Free_IdTypeList_eq (vec : List IdType) (m : Memory) :
    Free_IdTypeList vec m = m.release [] (IdType.drops vec) := by
  induction vec generalizing m with
  | nil => rw [IdType.drops, List.flatMap_nil, m.release_nil]; rfl
  | cons idtype vec ih =>
    have hrest := ih (m.TYPE_DECREF idtype.type)
    rw [m.TYPE_DECREF_eq, m.release_release] at hrest
    exact hrest

theorem super_eq (super : List (Option TypeDesc)) (m : Memory) :
    super.foldl (fun m desc => m.TYPE_DECREF desc) m = m.release [] (super.flatMap drop) := by
  induction super generalizing m with
  | nil => rw [List.flatMap_nil, m.release_nil]; rfl
  | cons desc super ih =>
    have hrest := ih (m.TYPE_DECREF desc)
    rw [m.TYPE_DECREF_eq, m.release_release] at hrest
    exact hrest

/-- The parts of a statement are freed, and then the node itself. -/
theorem Frees.stmt (hf : Frees f nodes drops) (addr : Nat) :
    Frees (fun m => f m >>= Memory.Mfree addr) (nodes ++ [addr]) drops := by
  have hboth := hf.bind (.Mfree addr)
  rw [List.append_nil] at hboth
  exact hboth

theorem Frees.types (hf : Frees f nodes drops) (args rets : List IdType) :
    Frees (fun m => f (Free_IdTypeList rets (Free_IdTypeList args m))) nodes
      (IdType.drops args ++ (IdType.drops rets ++ drops)) := by
  have hafter := (hf.after (IdType.drops rets)).after (IdType.drops args)
  intro m hnodup hlive
  dsimp only
  rw [Free_IdTypeList_eq, Free_IdTypeList_eq]
  exact hafter m hnodup hlive

/-- The references of a class are given back, and then the node is freed. -/
theorem Frees.klass (addr : Nat) (super : List (Option TypeDesc)) :
    Frees (fun m => m.touch addr >>= fun m =>
      (super.foldl (fun m desc => m.TYPE_DECREF desc) m).Mfree addr) [addr]
      (super.flatMap drop) := by
  have hfree := ((Frees.Mfree addr).after (super.flatMap drop)).touch List.mem_cons_self
  rw [List.append_nil] at hfree
  simp only [super_eq]
  exact hfree

end frees

mutual

/-- An expression of any kind is freed with all of its parts, each node once. -/
theorem Free_Expr_frees (e : Expr) : Frees (Free_Expr e) e.nodes e.drops := by
  cases e with
  | NIL h => exact .free_expr h
  | SELF h => exact .free_expr h
  | SUPER h => exact .free_expr h
  | CONST h value => exact .free_expr h
  | ID h name => exact .free_expr h
  | UNARY h op exp =>
    exact ((Free_Expr_frees exp).bind (.free_expr h)).touch (by simp)
  | BINARY h op lexp rexp =>
    exact ((Free_Expr_frees lexp).bind ((Free_Expr_frees rexp).bind (.free_expr h))).touch (by simp)
  | ATTRIBUTE h id left =>
    exact ((Free_Expr_frees left).bind (.free_expr h)).touch (by simp)
  | SUBSCRIPT h index left =>
    exact ((Free_Expr_frees index).bind ((Free_Expr_frees left).bind (.free_expr h))).touch
      (by simp)
  | CALL h args left =>
    exact ((free_exprlist_frees args).bind ((Free_Expr_frees left).bind (.free_expr h))).touch
      (by simp)
  | SLICE h start stop left =>
    exact ((Free_Expr_opt_frees start).bind ((Free_Expr_opt_frees stop).bind
      ((Free_Expr_frees left).bind (.free_expr h)))).touch (by simp)
  | ARRAY_LIST h vec =>
    exact ((free_exprlist_frees vec).bind (.free_expr h)).touch (by simp)
  | MAP_LIST h vec =>
    exact ((free_exprlist_frees vec).bind (.free_expr h)).touch (by simp)
  | MAP_ENTRY h key val =>
    exact ((Free_Expr_frees key).bind ((Free_Expr_frees val).bind (.free_expr h))).touch (by simp)
  | ARRAY h dims nulls base listExp =>
    exact ((free_exprlist_frees dims).bind
      (((Free_Expr_opt_frees listExp).bind (.free_expr h)).after (drop base))).touch (by simp)
  | MAP h type listExp =>
    exact (((Free_Expr_opt_frees listExp).bind (.free_expr h)).after (drop type)).touch (by simp)
  | SET h type listExp =>
    exact (((Free_Expr_opt_frees listExp).bind (.free_expr h)).after (drop type)).touch (by simp)
  | ANONY_FUNC h args rets body =>
    exact (((Free_Stmts_frees body).bind (.free_expr h)).types args rets).touch (by simp)

theorem Free_Expr_opt_frees (e : Option Expr) :
    Frees (Free_Expr_opt e) (nodes_opt e) (drops_opt e) := by
  cases e with
  | none => exact .ok
  | some exp => exact Free_Expr_frees exp

theorem free_exprlist_frees (vec : List Expr) :
    Frees (free_exprlist vec) (nodes_list vec) (drops_list vec) := by
  cases vec with
  | nil => exact .ok
  | cons exp vec => exact (Free_Expr_frees exp).bind (free_exprlist_frees vec)

/-- So is a statement, but for the members of a class. -/
theorem Free_Stmt_Func_frees (stmt : Stmt) :
    Frees (Free_Stmt_Func stmt) stmt.nodes stmt.drops := by
  cases stmt with
  | VAR addr id type exp konst =>
    exact (((Free_Expr_opt_frees exp).stmt addr).after (drop type)).touch (by simp)
  | VARLIST addr ids type exp konst =>
    exact (((Free_Expr_frees exp).stmt addr).after (drop type)).touch (by simp)
  | ASSIGN addr op left right =>
    exact ((Free_Expr_frees left).bind ((Free_Expr_frees right).stmt addr)).touch (by simp)
  | ASSIGNLIST addr left right =>
    exact ((free_exprlist_frees left).bind ((Free_Expr_frees right).stmt addr)).touch (by simp)
  | FUNC addr id args rets body =>
    exact (((Free_Stmts_frees body).stmt addr).types args rets).touch (by simp)
  | PROTO addr native id args rets =>
    have htypes := ((Frees.Mfree addr).types args rets).touch List.mem_cons_self
    rw [List.append_nil] at htypes
    exact htypes
  | EXPR addr exp => exact ((Free_Expr_frees exp).stmt addr).touch (by simp)
  | RETURN addr pos exps => exact ((free_exprlist_frees exps).stmt addr).touch (by simp)
  | LIST addr block vec => exact ((Free_Stmts_frees vec).stmt addr).touch (by simp)
  | CLASS addr id super body => exact Frees.klass addr super
  | TRAIT addr id super body => exact Frees.klass addr super

theorem Free_Stmts_frees (vec : List Stmt) :
    Frees (Free_Stmts vec) (nodes_stmts vec) (drops_stmts vec) := by
  cases vec with
  | nil => exact .ok
  | cons stmt vec => exact (Free_Stmt_Func_frees stmt).bind (Free_Stmts_frees vec)

end

end koala.ast
