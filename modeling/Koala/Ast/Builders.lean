import Koala.Ast.Free
import Koala.Parser.State

open koala.parser koala.typedesc

namespace koala.ast

set_option linter.style.nameCheck false

/-- The memory of the nodes, and the errors that were reported. -/
structure State where
  mem : Memory
  errors : List (Position × String)

namespace State

variable (st : State)

def Malloc : Nat × State :=
  let ⟨addr, mem⟩ := st.mem.Malloc
  (addr, { st with mem })

def TYPE_INCREF (desc : Option TypeDesc) : State := { st with mem := st.mem.TYPE_INCREF desc }

/-- Nodes are freed. -/
def free (f : Memory → Res Memory) : Res State := do
  let mem ← f st.mem
  .ok { st with mem }

def Syntax_Error (pos : Position) (fmt : String) : State :=
  { st with errors := st.errors ++ [(pos, fmt)] }

end State

def __Stmt_From_VarDecl (id : Ident) (type : Option TypeDesc) (exp : Option Expr) (konst : Bool)
    (st : State) : Stmt × State :=
  let ⟨addr, st⟩ := st.Malloc
  (.VAR addr id type exp konst, st)

def __Stmt_From_VarListDecl (ids : List Ident) (type : Option TypeDesc) (exp : Expr) (konst : Bool)
    (st : State) : Stmt × State :=
  let ⟨addr, st⟩ := st.Malloc
  (.VARLIST addr ids type exp konst, st)

def Stmt_From_Assign (op : AssignOpKind) (left right : Expr) (st : State) : Stmt × State :=
  let ⟨addr, st⟩ := st.Malloc
  (.ASSIGN addr op left right, st)

def Stmt_From_AssignList (left : List Expr) (right : Expr) (st : State) : Stmt × State :=
  let ⟨addr, st⟩ := st.Malloc
  (.ASSIGNLIST addr left right, st)

def __validate_count (lsz rsz : Nat) : Bool :=
  if lsz < rsz then false else if lsz > rsz then !decide (rsz > 1) else true

/-- The loops of `__Parser_Do_Variables`; `i` is the index of the next identifier. -/
def var_decls (type : Option TypeDesc) (exps : List Expr) (konst : Bool) :
    Nat → List Ident → State → List Stmt × State
  | _, [], st => ([], st)
  | i, id :: ids, st =>
    let exp := exps[i]?
    let st := st.TYPE_INCREF type
    let ⟨varStmt, st⟩ := __Stmt_From_VarDecl id type exp konst st
    let ⟨vec, st⟩ := var_decls type exps konst (i + 1) ids st
    (varStmt :: vec, st)

section builders

variable [Build]

def __Parser_Do_Variables (ids : List Ident) (type : Option TypeDesc) (exps : List Expr)
    (konst : Bool) (st : State) : Res (Option Stmt × State) := do
  let isz := ids.length
  let esz := exps.length
  if __validate_count isz esz = false then
    let e ← deref exps[0]?
    let st := st.Syntax_Error e.head.pos "left and right are not matched"
    let st ← st.free (free_exprlist exps)
    .ok (none, st)
  else if isz = esz then
    if isz = 1 then
      let id ← deref ids[0]?
      let st := st.TYPE_INCREF type
      let ⟨stmt, st⟩ := __Stmt_From_VarDecl id type exps[0]? konst st
      .ok (some stmt, st)
    else
      let ⟨addr, st⟩ := st.Malloc
      let ⟨vec, st⟩ := var_decls type exps konst 0 ids st
      .ok (some (.LIST addr false vec), st)
  else do
    assert (isz > esz ∧ esz ≤ 1)
    if esz = 1 then
      let e ← deref exps[0]?
      let st := st.TYPE_INCREF type
      let ⟨stmt, st⟩ := __Stmt_From_VarListDecl ids type e konst st
      .ok (some stmt, st)
    else if isz = 1 then
      let id ← deref ids[0]?
      let st := st.TYPE_INCREF type
      let ⟨stmt, st⟩ := __Stmt_From_VarDecl id type none konst st
      .ok (some stmt, st)
    else
      let ⟨addr, st⟩ := st.Malloc
      let ⟨vec, st⟩ := var_decls type [] konst 0 ids st
      .ok (some (.LIST addr false vec), st)

/-- The loop of `Parser_Do_Typeless_Variables` over as many expressions; `vec` is
what the list at `addr` holds. -/
def typeless_decls (exps : List Expr) (addr : Nat) :
    Nat → List Expr → List Stmt → State → Res (Option (List Stmt) × State)
  | _, [], vec, st => .ok (some vec, st)
  | i, .ID h name :: ids, vec, st => do
    let right := exps[i]?
    assert (right.isSome = true)
    let ⟨varStmt, st⟩ := __Stmt_From_VarDecl ⟨name, h.pos⟩ none right false st
    typeless_decls exps addr (i + 1) ids (vec ++ [varStmt]) st
  | _, e :: _, vec, st => do
    let st := st.Syntax_Error e.head.pos "needs an identifier"
    let st ← st.free (Free_Stmt_Func (.LIST addr false vec))
    .ok (none, st)

/-- Its loop over the identifiers of one expression. -/
def typeless_ids : List Expr → State → Option (List Ident) × State
  | [], st => (some [], st)
  | .ID h name :: ids, st =>
    let ⟨_ids, st⟩ := typeless_ids ids st
    (_ids.map fun _ids => ⟨name, h.pos⟩ :: _ids, st)
  | e :: _, st => (none, st.Syntax_Error e.head.pos "needs an identifier")

/-- The vectors of an erroneous statement are freed. -/
def free_both (left right : List Expr) (st : State) : Res (Option Stmt × State) := do
  let st ← st.free (free_exprlist left)
  let st ← st.free (free_exprlist right)
  .ok (none, st)

def Parser_Do_Typeless_Variables (ids exps : List Expr) (st : State) :
    Res (Option Stmt × State) := do
  let isz := ids.length
  let esz := exps.length
  if __validate_count isz esz = false then
    let e ← deref ids[0]?
    free_both ids exps (st.Syntax_Error e.head.pos "left and expr are not matched")
  else if isz = esz then
    if isz = 1 then
      let e ← deref ids[0]?
      match e with
      | .ID h name =>
        let ⟨stmt, st⟩ := __Stmt_From_VarDecl ⟨name, h.pos⟩ none exps[0]? false st
        let st ← st.free (free_exprlist ids)
        .ok (some stmt, st)
      | e => free_both ids exps (st.Syntax_Error e.head.pos "needs an identifier")
    else
      let ⟨addr, st⟩ := st.Malloc
      let ⟨vec, st⟩ ← typeless_decls exps addr 0 ids [] st
      match vec with
      | none => free_both ids exps st
      | some vec =>
        let st ← st.free (free_exprlist ids)
        .ok (some (.LIST addr false vec), st)
  else do
    assert (isz > esz ∧ esz = 1)
    let ⟨_ids, st⟩ := typeless_ids ids st
    match _ids with
    | none => free_both ids exps st
    | some _ids =>
      let right ← deref exps[0]?
      let st ← st.free (free_exprlist ids)
      let ⟨stmt, st⟩ := __Stmt_From_VarListDecl _ids none right false st
      .ok (some stmt, st)

/-- The loop of `Parser_Do_Assignments` over as many expressions. Where it is left
early, the list it fills is not freed. -/
def assign_stmts (right : List Expr) :
    Nat → List Expr → List Stmt → State → Res (Option (List Stmt) × State)
  | _, [], vec, st => .ok (some vec, st)
  | i, lexp :: left, vec, st => do
    if Expr_Maybe_Stored lexp = false then
      .ok (none, st.Syntax_Error lexp.head.pos "expr is not left expr")
    else
      let rexp ← deref right[i]?
      let ⟨assignStmt, st⟩ := Stmt_From_Assign .OP_ASSIGN lexp rexp st
      assign_stmts right (i + 1) left (vec ++ [assignStmt]) st

def Parser_Do_Assignments (left right : List Expr) (st : State) : Res (Option Stmt × State) := do
  let lsz := left.length
  let rsz := right.length
  if __validate_count lsz rsz = false then
    let e ← deref right[0]?
    free_both left right (st.Syntax_Error e.head.pos "left and right are not matched")
  else if lsz = rsz then
    if lsz = 1 then
      let lexp ← deref left[0]?
      if Expr_Maybe_Stored lexp = false then
        free_both left right (st.Syntax_Error lexp.head.pos "expr is not left expr")
      else
        let rexp ← deref right[0]?
        let ⟨stmt, st⟩ := Stmt_From_Assign .OP_ASSIGN lexp rexp st
        .ok (some stmt, st)
    else
      let ⟨addr, st⟩ := st.Malloc
      let ⟨vec, st⟩ ← assign_stmts right 0 left [] st
      match vec with
      | none => free_both left right st
      | some vec => .ok (some (.LIST addr false vec), st)
  else do
    assert (lsz > rsz ∧ rsz = 1)
    match left.find? fun lexp => Expr_Maybe_Stored lexp = false with
    | some lexp => free_both left right (st.Syntax_Error lexp.head.pos "expr is not left expr")
    | none =>
      let rexp ← deref right[0]?
      let ⟨stmt, st⟩ := Stmt_From_AssignList left rexp st
      .ok (some stmt, st)

end builders

end koala.ast

open koala.parser koala.typedesc

namespace koala.ast

set_option linter.style.nameCheck false

namespace grammar

structure KlassType where
  pkg : Option Ident
  klazz : Ident

inductive KeyType where
  | INTEGER
  | STRING
  | KlassType (klass : KlassType)

mutual

inductive BaseType where
  | PrimitiveType (type : typedesc.BaseType)
  | KlassType (klass : KlassType)
  | FunctionType (params rets : IDTypes)
  | MapType (key : KeyType) (val : Ty)
  | SetType (key : KeyType)

/-- `Type`. -/
inductive Ty where
  | BaseType (base : BaseType)
  | ArrayType (dims : BitVec 32) (base : BaseType)

/-- A list of parameters, which may end with a `VArgType`, or of results. -/
inductive IDTypes where
  | nil
  | cons (id : Option Ident) (type : Ty) (rest : IDTypes)
  | varg (id : Option Ident) (base : Option BaseType)

end

mutual

/-- The expressions whose actions make nodes. The tokens of `ArrayDimsExpression`
have one pair of brackets more than `dims`. -/
inductive Expression where
  | ID (pos : Position) (name : CString)
  | CONSTANT (pos : Position) (value : ConstValue)
  | TOKEN_NIL (pos : Position)
  | SELF (pos : Position)
  | SUPER (pos : Position)
  | AttributeExpression (pos : Position) (left : Expression) (id : Ident)
  | CallExpression (pos : Position) (left : Expression) (args : List Expression)
  | SubScriptExpression (pos : Position) (left index : Expression)
  | SliceExpression (pos : Position) (left : Expression) (start stop : Option Expression)
  | UnaryExpression (pos : Position) (op : UnaryOpKind) (exp : Expression)
  | BinaryExpression (pos : Position) (op : BinaryOpKind) (left right : Expression)
  | ArrayOrSetInitializer (init : ArrayInit)
  | MapInitializer (init : MapInit)
  | ArrayCreationExpression (pos : Position) (dims : List Expression) (type : Ty)
    (init : Option ArrayInit)
  | ArrayDimsExpression (pos : Position) (dims : Nat) (base : BaseType) (init : Option ArrayInit)
  | SetCreationExpression (pos : Position) (key : KeyType) (init : Option ArrayInit)
  | MapCreationExpression (pos : Position) (key : KeyType) (val : Ty) (init : Option MapInit)
  | AnonyFuncExpression (pos : Position) (args rets : IDTypes) (body : List Statement)

inductive ArrayInit where
  | mk (pos : Position) (vec : List Expression)

inductive MapInit where
  | mk (pos : Position) (vec : List MapKeyValue)

inductive MapKeyValue where
  | mk (pos : Position) (key val : Expression)

/-- The local statements whose actions make nodes. -/
inductive Statement where
  | EMPTY
  | ExprStatement (exp : Expression)
  | VariableDeclaration (ids : List Ident) (type : Option Ty) (exps : List Expression)
  | VariableDeclarationTypeless (ids exps : List Expression)
  | Assignment (left right : List Expression)
  | CompAssignment (pos : Position) (op : AssignOpKind) (left right : Expression)
  | ReturnStatement (pos : Position) (exps : List Expression)
  | Block (stmts : List Statement)

end

inductive Member where
  | EMPTY
  | FieldDeclaration (id : Ident) (type : Option Ty) (exp : Option Expression)
  | FunctionDeclaration (id : Ident) (args rets : IDTypes) (body : List Statement)
  | ProtoDeclaration (native : Bool) (id : Ident) (args rets : IDTypes)

inductive ModuleStatement where
  | EMPTY
  | VariableDeclaration (ids : List Ident) (type : Option Ty) (exps : List Expression)
  | ConstDeclaration (ids : List Ident) (type : Option Ty) (exps : List Expression)
  | FunctionDeclaration (id : Ident) (args rets : IDTypes) (body : List Statement)
  | ProtoDeclaration (id : Ident) (args rets : IDTypes)
  | TypeDeclaration (trait : Bool) (id : Ident) (super : List KlassType) (body : List Member)

end grammar

end koala.ast
