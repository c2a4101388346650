import Koala.Parser.Symbol

open koala.parser koala.typedesc

namespace koala.ast

set_option linter.style.nameCheck false

/-- The fields that all expressions have, and where the node is. -/
structure Head where
  addr : Nat
  pos : Position
  desc : Option TypeDesc

mutual

/-- The nodes of an expression. A `NULL` vector is empty; a dimension of an array
that is `NULL` only counts. -/
inductive Expr where
  | NIL (h : Head)
  | SELF (h : Head)
  | SUPER (h : Head)
  | CONST (h : Head) (value : ConstValue)
  | ID (h : Head) (name : CString)
  | UNARY (h : Head) (op : UnaryOpKind) (exp : Expr)
  | BINARY (h : Head) (op : BinaryOpKind) (lexp rexp : Expr)
  | ATTRIBUTE (h : Head) (id : Ident) (left : Expr)
  | SUBSCRIPT (h : Head) (index left : Expr)
  | CALL (h : Head) (args : List Expr) (left : Expr)
  | SLICE (h : Head) (start stop : Option Expr) (left : Expr)
  | ARRAY_LIST (h : Head) (vec : List Expr)
  | MAP_LIST (h : Head) (vec : List Expr)
  | MAP_ENTRY (h : Head) (key val : Expr)
  | ARRAY (h : Head) (dims : List Expr) (nulls : Nat) (base : Option TypeDesc)
    (listExp : Option Expr)
  | MAP (h : Head) (type : Option TypeDesc) (listExp : Option Expr)
  | SET (h : Head) (type : Option TypeDesc) (listExp : Option Expr)
  | ANONY_FUNC (h : Head) (args rets : List IdType) (body : List Stmt)

/-- The nodes of a statement. -/
inductive Stmt where
  | VAR (addr : Nat) (id : Ident) (type : Option TypeDesc) (exp : Option Expr) (konst : Bool)
  | VARLIST (addr : Nat) (ids : List Ident) (type : Option TypeDesc) (exp : Expr) (konst : Bool)
  | ASSIGN (addr : Nat) (op : AssignOpKind) (left right : Expr)
  | ASSIGNLIST (addr : Nat) (left : List Expr) (right : Expr)
  | FUNC (addr : Nat) (id : Ident) (args rets : List IdType) (body : List Stmt)
  | PROTO (addr : Nat) (native : Bool) (id : Ident) (args rets : List IdType)
  | EXPR (addr : Nat) (exp : Expr)
  | RETURN (addr : Nat) (pos : Position) (exps : List Expr)
  | LIST (addr : Nat) (block : Bool) (vec : List Stmt)
  | CLASS (addr : Nat) (id : Ident) (super : List (Option TypeDesc)) (body : List Stmt)
  | TRAIT (addr : Nat) (id : Ident) (super : List (Option TypeDesc)) (body : List Stmt)

end

def Expr.head : Expr → Head
  | .NIL h => h
  | .SELF h => h
  | .SUPER h => h
  | .CONST h _ => h
  | .ID h _ => h
  | .UNARY h _ _ => h
  | .BINARY h _ _ _ => h
  | .ATTRIBUTE h _ _ => h
  | .SUBSCRIPT h _ _ => h
  | .CALL h _ _ => h
  | .SLICE h _ _ _ => h
  | .ARRAY_LIST h _ => h
  | .MAP_LIST h _ => h
  | .MAP_ENTRY h _ _ => h
  | .ARRAY h _ _ _ _ => h
  | .MAP h _ _ => h
  | .SET h _ _ => h
  | .ANONY_FUNC h _ _ _ => h

def Expr_Maybe_Stored : Expr → Bool
  | .ID .. => true
  | .ATTRIBUTE .. => true
  | .SUBSCRIPT .. => true
  | _ => false

/-- What is done with descriptors: a reference is taken or given back, and a
descriptor is found or made. -/
inductive Change where
  | INCREF (desc : TypeDesc)
  | DECREF (desc : TypeDesc)
  | GET (desc : TypeDesc)
  | PROTO (arg ret : List TypeDesc)

/-- The memory of the nodes: the next address, the addresses that were freed, the
last first, and what was done with descriptors. -/
structure Memory where
  next : Nat
  freed : List Nat
  changes : List Change

namespace Memory

/-- Using a node that was freed reads what is not allocated. -/
def touch (addr : Nat) (m : Memory) : Res Memory :=
  if addr ∈ m.freed then .error .bounds else .ok m

def Mfree (addr : Nat) (m : Memory) : Res Memory := do
  let m ← m.touch addr
  .ok { m with freed := addr :: m.freed }

def Malloc (m : Memory) : Nat × Memory := (m.next, { m with next := m.next + 1 })

def TYPE_INCREF (desc : Option TypeDesc) (m : Memory) : Memory :=
  { m with changes := m.changes ++ desc.toList.map .INCREF }

def TYPE_DECREF (desc : Option TypeDesc) (m : Memory) : Memory :=
  { m with changes := m.changes ++ desc.toList.map .DECREF }

end Memory

def Free_IdTypeList (vec : List IdType) (m : Memory) : Memory :=
  vec.foldl (fun m idtype => m.TYPE_DECREF idtype.type) m

/-- The end of every function that frees an expression. -/
def free_expr (h : Head) (m : Memory) : Res Memory := (m.TYPE_DECREF h.desc).Mfree h.addr

mutual

/-- `Free_Expr` with the function of its table for the kind of the expression. -/
def Free_Expr : Expr → Memory → Res Memory
  | .NIL h, m => free_expr h m
  | .SELF h, m => free_expr h m
  | .SUPER h, m => free_expr h m
  | .CONST h _, m => free_expr h m
  | .ID h _, m => free_expr h m
  | .UNARY h _ exp, m => do
    let m ← m.touch h.addr
    let m ← Free_Expr exp m
    free_expr h m
  | .BINARY h _ lexp rexp, m => do
    let m ← m.touch h.addr
    let m ← Free_Expr lexp m
    let m ← Free_Expr rexp m
    free_expr h m
  | .ATTRIBUTE h _ left, m => do
    let m ← m.touch h.addr
    let m ← Free_Expr left m
    free_expr h m
  | .SUBSCRIPT h index left, m => do
    let m ← m.touch h.addr
    let m ← Free_Expr index m
    let m ← Free_Expr left m
    free_expr h m
  | .CALL h args left, m => do
    let m ← m.touch h.addr
    let m ← free_exprlist args m
    let m ← Free_Expr left m
    free_expr h m
  | .SLICE h start stop left, m => do
    let m ← m.touch h.addr
    let m ← Free_Expr_opt start m
    let m ← Free_Expr_opt stop m
    let m ← Free_Expr left m
    free_expr h m
  | .ARRAY_LIST h vec, m => do
    let m ← m.touch h.addr
    let m ← free_exprlist vec m
    free_expr h m
  | .MAP_LIST h vec, m => do
    let m ← m.touch h.addr
    let m ← free_exprlist vec m
    free_expr h m
  | .MAP_ENTRY h key val, m => do
    let m ← m.touch h.addr
    let m ← Free_Expr key m
    let m ← Free_Expr val m
    free_expr h m
  | .ARRAY h dims _ base listExp, m => do
    let m ← m.touch h.addr
    let m ← free_exprlist dims m
    let m := m.TYPE_DECREF base
    let m ← Free_Expr_opt listExp m
    free_expr h m
  | .MAP h type listExp, m => do
    let m ← m.touch h.addr
    let m := m.TYPE_DECREF type
    let m ← Free_Expr_opt listExp m
    free_expr h m
  | .SET h type listExp, m => do
    let m ← m.touch h.addr
    let m := m.TYPE_DECREF type
    let m ← Free_Expr_opt listExp m
    free_expr h m
  | .ANONY_FUNC h args rets body, m => do
    let m ← m.touch h.addr
    let m := Free_IdTypeList rets (Free_IdTypeList args m)
    let m ← Free_Stmts body m
    free_expr h m

/-- `Free_Expr` of a pointer that may be `NULL`. -/
def Free_Expr_opt : Option Expr → Memory → Res Memory
  | none, m => .ok m
  | some exp, m => Free_Expr exp m

def free_exprlist : List Expr → Memory → Res Memory
  | [], m => .ok m
  | exp :: vec, m => do
    let m ← Free_Expr exp m
    free_exprlist vec m

/-- `Free_Stmt_Func` with the function of its table for the kind of the statement. -/
def Free_Stmt_Func : Stmt → Memory → Res Memory
  | .VAR addr _ type exp _, m => do
    let m ← m.touch addr
    let m := m.TYPE_DECREF type
    let m ← Free_Expr_opt exp m
    m.Mfree addr
  | .VARLIST addr _ type exp _, m => do
    let m ← m.touch addr
    let m := m.TYPE_DECREF type
    let m ← Free_Expr exp m
    m.Mfree addr
  | .ASSIGN addr _ left right, m => do
    let m ← m.touch addr
    let m ← Free_Expr left m
    let m ← Free_Expr right m
    m.Mfree addr
  | .ASSIGNLIST addr left right, m => do
    let m ← m.touch addr
    let m ← free_exprlist left m
    let m ← Free_Expr right m
    m.Mfree addr
  | .FUNC addr _ args rets body, m => do
    let m ← m.touch addr
    let m := Free_IdTypeList rets (Free_IdTypeList args m)
    let m ← Free_Stmts body m
    m.Mfree addr
  | .PROTO addr _ _ args rets, m => do
    let m ← m.touch addr
    let m := Free_IdTypeList rets (Free_IdTypeList args m)
    m.Mfree addr
  | .EXPR addr exp, m => do
    let m ← m.touch addr
    let m ← Free_Expr exp m
    m.Mfree addr
  | .RETURN addr _ exps, m => do
    let m ← m.touch addr
    let m ← free_exprlist exps m
    m.Mfree addr
  | .LIST addr _ vec, m => do
    let m ← m.touch addr
    let m ← Free_Stmts vec m
    m.Mfree addr
  -- the members of a class are not freed
  | .CLASS addr _ super _, m => do
    let m ← m.touch addr
    let m := super.foldl (fun m desc => m.TYPE_DECREF desc) m
    m.Mfree addr
  | .TRAIT addr _ super _, m => do
    let m ← m.touch addr
    let m := super.foldl (fun m desc => m.TYPE_DECREF desc) m
    m.Mfree addr

/-- `Vector_Free` with `Free_Stmt_Func`. -/
def Free_Stmts : List Stmt → Memory → Res Memory
  | [], m => .ok m
  | stmt :: vec, m => do
    let m ← Free_Stmt_Func stmt m
    Free_Stmts vec m

end

end koala.ast
