import Koala.TypeDesc.Desc
import Koala.OpCode

open koala.typedesc

namespace koala.parser

set_option linter.style.nameCheck false

structure Position where
  row : Nat
  col : Nat
  deriving DecidableEq, Repr

structure Ident where
  name : CString
  pos : Position
  deriving DecidableEq

/-- A constant value. Where the source has a value of kind 0, there is none. -/
inductive ConstValue where
  | BASE_INT (ival : BitVec 64)
  | BASE_FLOAT (fval : BitVec 64)
  | BASE_BOOL (bval : Bool)
  | BASE_STRING (str : CString)
  | BASE_CHAR (ch : BitVec 32)
  deriving DecidableEq

def ConstValue.kind : ConstValue → BaseType
  | .BASE_INT _ => .BASE_INT
  | .BASE_FLOAT _ => .BASE_FLOAT
  | .BASE_BOOL _ => .BASE_BOOL
  | .BASE_STRING _ => .BASE_STRING
  | .BASE_CHAR _ => .BASE_CHAR

inductive UnaryOpKind where
  | UNARY_PLUS
  | UNARY_NEG
  | UNARY_BIT_NOT
  | UNARY_LNOT
  deriving DecidableEq

inductive BinaryOpKind where
  | BINARY_ADD
  | BINARY_SUB
  | BINARY_MULT
  | BINARY_DIV
  | BINARY_MOD
  | BINARY_QUOT
  | BINARY_POWER
  | BINARY_LSHIFT
  | BINARY_RSHIFT
  | BINARY_GT
  | BINARY_GE
  | BINARY_LT
  | BINARY_LE
  | BINARY_EQ
  | BINARY_NEQ
  | BINARY_BIT_AND
  | BINARY_BIT_XOR
  | BINARY_BIT_OR
  | BINARY_LAND
  | BINARY_LOR
  deriving DecidableEq

/-- The kinds of the expressions that no function of the parser looks into. -/
inductive HeadKind where
  | NIL_KIND
  | SELF_KIND
  | SUPER_KIND
  | SUBSCRIPT_KIND
  | SLICE_KIND
  | ARRAY_LIST_KIND
  | MAP_LIST_KIND
  | MAP_ENTRY_KIND
  | ARRAY_KIND
  | MAP_KIND
  | SET_KIND
  | ANONY_FUNC_KIND
  deriving DecidableEq

inductive Expr where
  | HEAD (kind : HeadKind) (pos : Position)
  | CONST (value : ConstValue) (pos : Position)
  | ID (name : CString) (pos : Position)
  | UNARY (op : UnaryOpKind) (exp : Expr) (pos : Position)
  | BINARY (op : BinaryOpKind) (lexp rexp : Expr) (pos : Position)
  | ATTRIBUTE (id : Ident) (left : Expr) (pos : Position)
  | CALL (args : List Expr) (left : Expr) (pos : Position)

namespace Expr

def pos : Expr → Position
  | HEAD _ pos => pos
  | CONST _ pos => pos
  | ID _ pos => pos
  | UNARY _ _ pos => pos
  | BINARY _ _ _ pos => pos
  | ATTRIBUTE _ _ pos => pos
  | CALL _ _ pos => pos

/-- The descriptor that an expression is built with. -/
def desc : Expr → Option TypeDesc
  | CONST value _ => some (.base value.kind)
  | UNARY _ exp _ => exp.desc
  | BINARY _ lexp _ _ => lexp.desc
  | _ => none

def Is_Call : Expr → Bool
  | CALL .. => true
  | _ => false

def Is_Super : Expr → Bool
  | HEAD .SUPER_KIND _ => true
  | _ => false

end Expr

/-- Parameters have a name, results may have one. -/
structure IdType where
  id : Option Ident
  type : Option TypeDesc

inductive AssignOpKind where
  | OP_ASSIGN
  | OP_PLUS_ASSIGN
  | OP_MINUS_ASSIGN
  | OP_MULT_ASSIGN
  | OP_DIV_ASSIGN
  | OP_MOD_ASSIGN
  | OP_AND_ASSIGN
  | OP_OR_ASSIGN
  | OP_XOR_ASSIGN
  | OP_RSHIFT_ASSIGN
  | OP_LSHIFT_ASSIGN
  deriving DecidableEq

/-- Lists that are `NULL` in the source are empty here. -/
inductive Stmt where
  | VAR (id : Ident) (type : Option TypeDesc) (exp : Option Expr) (konst : Bool)
  | VARLIST (ids : List Ident) (type : Option TypeDesc) (exp : Expr) (konst : Bool)
  | ASSIGN (op : AssignOpKind) (left right : Expr)
  | ASSIGNLIST (left : List Expr) (right : Expr)
  | FUNC (id : Ident) (args rets : List IdType) (body : List Stmt)
  | PROTO (native : Bool) (id : Ident) (args rets : List IdType)
  | EXPR (exp : Expr)
  | RETURN (pos : Position) (exps : List Expr)
  | LIST (block : Bool) (vec : List Stmt)
  | CLASS (id : Ident) (super : List TypeDesc) (body : List Stmt)
  | TRAIT (id : Ident) (super : List TypeDesc) (body : List Stmt)

/-- `StmtKind`, which numbers the statements. -/
def Stmt.kind : Stmt → Nat
  | .VAR .. => 1
  | .VARLIST .. => 2
  | .ASSIGN .. => 3
  | .ASSIGNLIST .. => 4
  | .FUNC .. => 5
  | .PROTO .. => 6
  | .EXPR .. => 7
  | .RETURN .. => 8
  | .LIST .. => 9
  | .CLASS .. => 10
  | .TRAIT .. => 11

end koala.parser

open koala.typedesc

namespace koala.parser

set_option linter.style.nameCheck false

/-- An instruction; where its argument is of kind 0, there is none. -/
structure Inst where
  op : OpCode
  arg : Option ConstValue
  argc : Nat
  deriving DecidableEq

/-- The code of a scope; `ret` is set by a `return` statement. -/
structure CodeBlock where
  insts : List Inst
  ret : Bool
  deriving DecidableEq

def CodeBlock_New : CodeBlock := ⟨[], false⟩

def Inst_Append (b : CodeBlock) (op : OpCode) (val : Option ConstValue) : CodeBlock :=
  { b with insts := b.insts ++ [⟨op, val, 0⟩] }

def Inst_Append_NoArg (b : CodeBlock) (op : OpCode) : CodeBlock := Inst_Append b op none

/-- The instructions of a block go to the end of another. -/
def CodeBlock_Merge (from_ to_ : CodeBlock) : CodeBlock :=
  { to_ with insts := to_.insts ++ from_.insts }

def CODE_LOAD (b : CodeBlock) (index : Nat) : CodeBlock :=
  Inst_Append b .LOAD (some (.BASE_INT (BitVec.ofNat 64 index)))

def CODE_STORE (b : CodeBlock) (index : Nat) : CodeBlock :=
  Inst_Append b .STORE (some (.BASE_INT (BitVec.ofNat 64 index)))

def CODE_LOAD_FIELD (b : CodeBlock) (name : CString) : CodeBlock :=
  Inst_Append (Inst_Append_NoArg b .LOAD_0) .LOAD_FIELD (some (.BASE_STRING name))

def CODE_STORE_FIELD (b : CodeBlock) (name : CString) : CodeBlock :=
  Inst_Append (Inst_Append_NoArg b .LOAD_0) .STORE_FIELD (some (.BASE_STRING name))

def CODE_CALL (b : CodeBlock) (name : CString) (argc : Nat) : CodeBlock :=
  let b := Inst_Append_NoArg b .LOAD_0
  { b with insts := b.insts ++ [⟨.CALL, some (.BASE_STRING name), argc⟩] }

/-- A symbol table: its symbols in the order they were added, and the next
index of a variable. -/
structure STable (σ : Type) where
  symbols : List σ
  varindex : Nat

/-- A variable as a function lists it. -/
structure LocVar where
  name : CString
  desc : Option TypeDesc
  index : Nat
  deriving DecidableEq

/-- What the kind of a symbol adds to it. -/
inductive SymData (σ : Type) where
  | SYM_CONST (index : Nat) (value : Option ConstValue)
  | SYM_VAR (index : Nat) (value : Option ConstValue)
  | SYM_FUNC (locvec : List LocVar) (code : Option CodeBlock)
  | SYM_CLASS (stbl : STable σ)
  | SYM_TRAIT (stbl : STable σ)
  | SYM_IFUNC
  | SYM_NFUNC
  | SYM_PKG (stbl : STable σ)

structure Symbol where
  name : CString
  desc : Option TypeDesc
  filename : Option CString
  pos : Position
  data : SymData Symbol

inductive SymKind where
  | SYM_CONST
  | SYM_VAR
  | SYM_FUNC
  | SYM_CLASS
  | SYM_TRAIT
  | SYM_IFUNC
  | SYM_NFUNC
  | SYM_PKG
  deriving DecidableEq

def SymData.kind {σ : Type} : SymData σ → SymKind
  | .SYM_CONST .. => .SYM_CONST
  | .SYM_VAR .. => .SYM_VAR
  | .SYM_FUNC .. => .SYM_FUNC
  | .SYM_CLASS _ => .SYM_CLASS
  | .SYM_TRAIT _ => .SYM_TRAIT
  | .SYM_IFUNC => .SYM_IFUNC
  | .SYM_NFUNC => .SYM_NFUNC
  | .SYM_PKG _ => .SYM_PKG

def Symbol.kind (sym : Symbol) : SymKind := sym.data.kind

/-- The symbol table of a class or a trait. -/
def Symbol.stbl (sym : Symbol) : Option (STable Symbol) :=
  match sym.data with
  | .SYM_CLASS stbl => some stbl
  | .SYM_TRAIT stbl => some stbl
  | _ => none

def Symbol.setStbl (sym : Symbol) (stbl : STable Symbol) : Symbol :=
  match sym.data with
  | .SYM_CLASS _ => { sym with data := .SYM_CLASS stbl }
  | .SYM_TRAIT _ => { sym with data := .SYM_TRAIT stbl }
  | _ => sym

/-- Index 0 is for the module or the object itself. -/
def STable_New : STable Symbol := ⟨[], 1⟩

def STable_Get (stbl : STable Symbol) (name : CString) : Option Symbol :=
  stbl.symbols.find? fun sym => sym.name = name

def STable.append (stbl : STable Symbol) (sym : Symbol) : STable Symbol :=
  { stbl with symbols := stbl.symbols ++ [sym] }

/-- `HashTable_Insert` of a symbol that is not there yet. -/
def STable.insert (stbl : STable Symbol) (sym : Symbol) : Option (STable Symbol) :=
  if (STable_Get stbl sym.name).isSome then none else some (stbl.append sym)

/-- A symbol is written through a pointer to it. -/
def STable.update (stbl : STable Symbol) (name : CString) (f : Symbol → Symbol) : STable Symbol :=
  { stbl with symbols := stbl.symbols.map fun sym => if sym.name = name then f sym else sym }

section add

variable (stbl : STable Symbol) (name : CString)

/-- `Symbol_New`: the file and the position are set by the caller. -/
def Symbol_New (desc : Option TypeDesc) (data : SymData Symbol) : Symbol :=
  ⟨name, desc, none, ⟨0, 0⟩, data⟩

/-- A constant or a variable takes the next index. -/
def STable.addVar (desc : Option TypeDesc) (data : Nat → SymData Symbol) :
    Option (STable Symbol) := do
  let stbl' ← stbl.insert (Symbol_New name desc (data stbl.varindex))
  some { stbl' with varindex := stbl.varindex + 1 }

def STable_Add_Const (desc : Option TypeDesc) : Option (STable Symbol) :=
  stbl.addVar name desc fun index => .SYM_CONST index none

def STable_Add_Var (desc : Option TypeDesc) : Option (STable Symbol) :=
  stbl.addVar name desc fun index => .SYM_VAR index none

def STable_Add_Func (proto : TypeDesc) : Option (STable Symbol) :=
  stbl.insert (Symbol_New name (some proto) (.SYM_FUNC [] none))

def STable_Add_Class : Option (STable Symbol) :=
  stbl.insert (Symbol_New name none (.SYM_CLASS STable_New))

def STable_Add_Trait : Option (STable Symbol) :=
  stbl.insert (Symbol_New name none (.SYM_TRAIT STable_New))

def STable_Add_IFunc (proto : TypeDesc) : Option (STable Symbol) :=
  stbl.insert (Symbol_New name (some proto) .SYM_IFUNC)

def STable_Add_NFunc (proto : TypeDesc) : Option (STable Symbol) :=
  stbl.insert (Symbol_New name (some proto) .SYM_NFUNC)

end add

end koala.parser
