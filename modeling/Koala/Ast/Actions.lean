import Koala.Ast.Builders

open koala.parser koala.typedesc

namespace koala.ast

set_option linter.style.nameCheck false

namespace State

variable (st : State)

def TYPE_DECREF (desc : Option TypeDesc) : State := { st with mem := st.mem.TYPE_DECREF desc }

/-- A descriptor is found or made. -/
def change (change : Change) : State :=
  { st with mem := { st.mem with changes := st.mem.changes ++ [change] } }

end State

def New_IdType (id : Option Ident) (type : Option TypeDesc) (st : State) : IdType × State :=
  (⟨id, type⟩, st.TYPE_INCREF type)

/-- A node of an expression with its position and its descriptor. -/
def new_expr (pos : Position) (desc : Option TypeDesc) (st : State) : Head × State :=
  let ⟨addr, st⟩ := st.Malloc
  (⟨addr, pos, desc⟩, st.TYPE_INCREF desc)

/-- `Expr_From_Integer`, `Float`, `Bool`, `String` and `Char`. -/
def Expr_From_Const (pos : Position) (value : ConstValue) (st : State) : Expr × State :=
  let ⟨h, st⟩ := new_expr pos (some (.base value.kind)) st
  (.CONST h value, st)

def Expr_From_Unary (pos : Position) (op : UnaryOpKind) (exp : Expr) (st : State) : Expr × State :=
  let ⟨h, st⟩ := new_expr pos exp.head.desc st
  (.UNARY h op exp, st)

def Expr_From_Binary (pos : Position) (op : BinaryOpKind) (left right : Expr) (st : State) :
    Expr × State :=
  let ⟨h, st⟩ := new_expr pos left.head.desc st
  (.BINARY h op left right, st)

/-- The function types of the source have a reference to each of their components. -/
def proto_items (vec : List IdType) (st : State) : List (Option TypeDesc) × State :=
  (vec.map IdType.type, vec.foldl (fun st idtype => st.TYPE_INCREF idtype.type) st)

/-- The texts of the components are read. -/
def derefs {α : Type} : List (Option α) → Res (List α)
  | [] => .ok []
  | p :: ps => do
    let a ← deref p
    let as ← derefs ps
    .ok (a :: as)

def TypeDesc_Get_Proto (pvec rvec : List (Option TypeDesc)) (st : State) :
    Res (TypeDesc × State) := do
  let arg ← derefs pvec
  let ret ← derefs rvec
  .ok (.proto arg ret, st.change (.PROTO arg ret))

/-- Where dimensions are given the descriptor of an array type is given back. -/
def Parser_New_Array (pos : Position) (vec : Option (List Expr)) (dims : Nat) (type : TypeDesc)
    (listExp : Option Expr) (st : State) : Res (Expr × State) :=
  match vec, type with
  | some vec, .array n base => do
    assert (dims = 0)
    let st := (st.TYPE_INCREF (some base)).TYPE_DECREF (some (.array n base))
    let ⟨h, st⟩ := new_expr pos none st
    .ok (.ARRAY h vec n.toInt.toNat (some base) listExp, st)
  | some vec, base => do
    assert (dims = 0)
    let ⟨h, st⟩ := new_expr pos none (st.TYPE_INCREF (some base))
    .ok (.ARRAY h vec 0 (some base) listExp, st)
  | none, .array _ _ => .error .assertion
  | none, base => do
    assert (dims ≠ 0)
    let ⟨h, st⟩ := new_expr pos none (st.TYPE_INCREF (some base))
    .ok (.ARRAY h [] dims (some base) listExp, st)

def Parser_New_KlassType (extstbl : List CString) (id : Option Ident) (klazz : Ident)
    (st : State) : Option TypeDesc × State :=
  match id with
  | none => (some (.klass none klazz.name), st.change (.GET (.klass none klazz.name)))
  | some id =>
    if id.name ∈ extstbl then
      (some (.klass none klazz.name), st.change (.GET (.klass none klazz.name)))
    else (none, st.Syntax_Error id.pos "undefined '%s'")

def Stmt_From_FuncDecl (id : Ident) (args rets : List IdType) (body : List Stmt) (st : State) :
    Stmt × State :=
  let ⟨addr, st⟩ := st.Malloc
  (.FUNC addr id args rets body, st)

def Stmt_From_ProtoDecl (native : Bool) (id : Ident) (args rets : List IdType) (st : State) :
    Stmt × State :=
  let ⟨addr, st⟩ := st.Malloc
  (.PROTO addr native id args rets, st)

def Stmt_From_Klass (trait : Bool) (id : Ident) (super : List (Option TypeDesc))
    (body : List Stmt) (st : State) : Stmt × State :=
  let ⟨addr, st⟩ := st.Malloc
  (if trait then .TRAIT addr id super body else .CLASS addr id super body, st)

namespace grammar

variable (extstbl : List CString)

def KlassType.build (type : KlassType) (st : State) : Option TypeDesc × State :=
  Parser_New_KlassType extstbl type.pkg type.klazz st

def KeyType.build : KeyType → State → Option TypeDesc × State
  | .INTEGER, st => (some (.base .BASE_INT), st)
  | .STRING, st => (some (.base .BASE_STRING), st)
  | .KlassType klass, st => klass.build extstbl st

mutual

def BaseType.build : BaseType → State → Res (Option TypeDesc × State)
  | .PrimitiveType type, st => .ok (some (.base type), st)
  | .KlassType klass, st => .ok (klass.build extstbl st)
  | .FunctionType params rets, st => do
    let ⟨params, st⟩ ← params.build st
    let ⟨rets, st⟩ ← rets.build st
    let ⟨pvec, st⟩ := proto_items params st
    let ⟨rvec, st⟩ := proto_items rets st
    let ⟨desc, st⟩ ← TypeDesc_Get_Proto pvec rvec st
    .ok (some desc, { st with mem := Free_IdTypeList rets (Free_IdTypeList params st.mem) })
  | .MapType key val, st => do
    let ⟨key, st⟩ := key.build extstbl st
    let ⟨val, st⟩ ← val.build st
    let key ← deref key
    let val ← deref val
    .ok (some (.map key val), st.change (.GET (.map key val)))
  | .SetType key, st => do
    let ⟨key, st⟩ := key.build extstbl st
    let key ← deref key
    .ok (some (.set key), st.change (.GET (.set key)))

def Ty.build : Ty → State → Res (Option TypeDesc × State)
  | .BaseType base, st => base.build st
  | .ArrayType dims base, st => do
    let ⟨base, st⟩ ← base.build st
    let base ← deref base
    .ok (some (.array dims base), st.change (.GET (.array dims base)))

def IDTypes.build : IDTypes → State → Res (List IdType × State)
  | .nil, st => .ok ([], st)
  | .cons id type rest, st => do
    let ⟨type, st⟩ ← type.build st
    let ⟨idtype, st⟩ := New_IdType id type st
    let ⟨vec, st⟩ ← rest.build st
    .ok (idtype :: vec, st)
  -- `...` alone is `...any`
  | .varg id none, st => do
    let type := .varg (.base .BASE_ANY)
    let ⟨idtype, st⟩ := New_IdType id (some type) (st.change (.GET type))
    .ok ([idtype], st)
  | .varg id (some base), st => do
    let ⟨base, st⟩ ← base.build st
    let type := .varg (base.getD (.base .BASE_ANY))
    let ⟨idtype, st⟩ := New_IdType id (some type) (st.change (.GET type))
    .ok ([idtype], st)

end

/-- A type that may be left out. -/
def build_type : Option Ty → State → Res (Option TypeDesc × State)
  | none, st => .ok (none, st)
  | some type, st => type.build extstbl st

mutual

def Expression.build : Expression → State → Res (Expr × State)
  | .ID pos name, st => do
    let ⟨h, st⟩ := new_expr pos none st
    .ok (.ID h name, st)
  | .CONSTANT pos value, st => .ok (Expr_From_Const pos value st)
  | .TOKEN_NIL pos, st => do
    let ⟨h, st⟩ := new_expr pos none st
    .ok (.NIL h, st)
  | .SELF pos, st => do
    let ⟨h, st⟩ := new_expr pos none st
    .ok (.SELF h, st)
  | .SUPER pos, st => do
    let ⟨h, st⟩ := new_expr pos none st
    .ok (.SUPER h, st)
  | .AttributeExpression pos left id, st => do
    let ⟨left, st⟩ ← left.build st
    let ⟨h, st⟩ := new_expr pos none st
    .ok (.ATTRIBUTE h id left, st)
  | .CallExpression pos left args, st => do
    let ⟨left, st⟩ ← left.build st
    let ⟨args, st⟩ ← build_exprs args st
    let ⟨h, st⟩ := new_expr pos none st
    .ok (.CALL h args left, st)
  | .SubScriptExpression pos left index, st => do
    let ⟨left, st⟩ ← left.build st
    let ⟨index, st⟩ ← index.build st
    let ⟨h, st⟩ := new_expr pos none st
    .ok (.SUBSCRIPT h index left, st)
  | .SliceExpression pos left start stop, st => do
    let ⟨left, st⟩ ← left.build st
    let ⟨start, st⟩ ← build_opt start st
    let ⟨stop, st⟩ ← build_opt stop st
    let ⟨h, st⟩ := new_expr pos none st
    .ok (.SLICE h start stop left, st)
  | .UnaryExpression pos op exp, st => do
    let ⟨exp, st⟩ ← exp.build st
    .ok (Expr_From_Unary pos op exp st)
  | .BinaryExpression pos op left right, st => do
    let ⟨left, st⟩ ← left.build st
    let ⟨right, st⟩ ← right.build st
    .ok (Expr_From_Binary pos op left right st)
  | .ArrayOrSetInitializer init, st => init.build st
  | .MapInitializer init, st => init.build st
  | .ArrayCreationExpression pos dims type init, st => do
    let ⟨dims, st⟩ ← build_exprs dims st
    let ⟨type, st⟩ ← type.build extstbl st
    let ⟨listExp, st⟩ ← build_array_init init st
    let type ← deref type
    Parser_New_Array pos (some dims) 0 type listExp st
  | .ArrayDimsExpression pos dims base init, st => do
    let ⟨base, st⟩ ← base.build extstbl st
    let ⟨listExp, st⟩ ← build_array_init init st
    let base ← deref base
    Parser_New_Array pos none (dims + 1) base listExp st
  | .SetCreationExpression pos key init, st => do
    let ⟨type, st⟩ ← (BaseType.SetType key).build extstbl st
    let ⟨listExp, st⟩ ← build_array_init init st
    let ⟨h, st⟩ := new_expr pos none (st.TYPE_INCREF type)
    .ok (.SET h type listExp, st)
  | .MapCreationExpression pos key val init, st => do
    let ⟨type, st⟩ ← (BaseType.MapType key val).build extstbl st
    let ⟨listExp, st⟩ ← build_map_init init st
    let ⟨h, st⟩ := new_expr pos none (st.TYPE_INCREF type)
    .ok (.MAP h type listExp, st)
  | .AnonyFuncExpression pos args rets body, st => do
    let ⟨args, st⟩ ← args.build extstbl st
    let ⟨rets, st⟩ ← rets.build extstbl st
    let ⟨body, st⟩ ← build_stmts body st
    let ⟨h, st⟩ := new_expr pos none st
    .ok (.ANONY_FUNC h args rets body, st)

def build_opt : Option Expression → State → Res (Option Expr × State)
  | none, st => .ok (none, st)
  | some exp, st => do
    let ⟨exp, st⟩ ← exp.build st
    .ok (some exp, st)

def build_exprs : List Expression → State → Res (List Expr × State)
  | [], st => .ok ([], st)
  | exp :: exps, st => do
    let ⟨exp, st⟩ ← exp.build st
    let ⟨vec, st⟩ ← build_exprs exps st
    .ok (exp :: vec, st)

def ArrayInit.build : ArrayInit → State → Res (Expr × State)
  | .mk pos vec, st => do
    let ⟨vec, st⟩ ← build_exprs vec st
    let ⟨h, st⟩ := new_expr pos none st
    .ok (.ARRAY_LIST h vec, st)

def build_array_init : Option ArrayInit → State → Res (Option Expr × State)
  | none, st => .ok (none, st)
  | some init, st => do
    let ⟨listExp, st⟩ ← init.build st
    .ok (some listExp, st)

def MapInit.build : MapInit → State → Res (Expr × State)
  | .mk pos vec, st => do
    let ⟨vec, st⟩ ← build_entries vec st
    let ⟨h, st⟩ := new_expr pos none st
    .ok (.MAP_LIST h vec, st)

def build_map_init : Option MapInit → State → Res (Option Expr × State)
  | none, st => .ok (none, st)
  | some init, st => do
    let ⟨listExp, st⟩ ← init.build st
    .ok (some listExp, st)

def MapKeyValue.build : MapKeyValue → State → Res (Expr × State)
  | .mk pos key val, st => do
    let ⟨key, st⟩ ← key.build st
    let ⟨val, st⟩ ← val.build st
    let ⟨h, st⟩ := new_expr pos none st
    .ok (.MAP_ENTRY h key val, st)

def build_entries : List MapKeyValue → State → Res (List Expr × State)
  | [], st => .ok ([], st)
  | entry :: entries, st => do
    let ⟨entry, st⟩ ← entry.build st
    let ⟨vec, st⟩ ← build_entries entries st
    .ok (entry :: vec, st)

def Statement.build : Statement → State → Res (Option Stmt × State)
  | .EMPTY, st => .ok (none, st)
  | .ExprStatement exp, st => do
    let ⟨exp, st⟩ ← exp.build st
    let ⟨addr, st⟩ := st.Malloc
    .ok (some (.EXPR addr exp), st)
  | .VariableDeclaration ids type exps, st => do
    let ⟨type, st⟩ ← build_type extstbl type st
    let ⟨exps, st⟩ ← build_exprs exps st
    __Parser_Do_Variables ids type exps false st
  | .VariableDeclarationTypeless ids exps, st => do
    let ⟨ids, st⟩ ← build_exprs ids st
    let ⟨exps, st⟩ ← build_exprs exps st
    Parser_Do_Typeless_Variables ids exps st
  | .Assignment left right, st => do
    let ⟨left, st⟩ ← build_exprs left st
    let ⟨right, st⟩ ← build_exprs right st
    Parser_Do_Assignments left right st
  | .CompAssignment pos op left right, st => do
    let ⟨left, st⟩ ← left.build st
    let ⟨right, st⟩ ← right.build st
    if Expr_Maybe_Stored left = false then
      let st := st.Syntax_Error pos "expr is not left expr"
      let st ← st.free (Free_Expr left)
      let st ← st.free (Free_Expr right)
      .ok (none, st)
    else
      let ⟨stmt, st⟩ := Stmt_From_Assign op left right st
      .ok (some stmt, st)
  | .ReturnStatement pos exps, st => do
    let ⟨exps, st⟩ ← build_exprs exps st
    let ⟨addr, st⟩ := st.Malloc
    .ok (some (.RETURN addr pos exps), st)
  | .Block stmts, st => do
    let ⟨vec, st⟩ ← build_stmts stmts st
    let ⟨addr, st⟩ := st.Malloc
    .ok (some (.LIST addr true vec), st)

/-- `LocalStatements` leaves out what is `NULL`. -/
def build_stmts : List Statement → State → Res (List Stmt × State)
  | [], st => .ok ([], st)
  | stmt :: stmts, st => do
    let ⟨stmt, st⟩ ← stmt.build st
    let ⟨vec, st⟩ ← build_stmts stmts st
    .ok (stmt.toList ++ vec, st)

end

def Member.build : Member → State → Res (Option Stmt × State)
  | .EMPTY, st => .ok (none, st)
  | .FieldDeclaration id type exp, st => do
    let ⟨type, st⟩ ← build_type extstbl type st
    let ⟨exp, st⟩ ← build_opt extstbl exp st
    let ⟨stmt, st⟩ := __Stmt_From_VarDecl id type exp false st
    .ok (some stmt, st)
  | .FunctionDeclaration id args rets body, st => do
    let ⟨args, st⟩ ← args.build extstbl st
    let ⟨rets, st⟩ ← rets.build extstbl st
    let ⟨body, st⟩ ← build_stmts extstbl body st
    let ⟨stmt, st⟩ := Stmt_From_FuncDecl id args rets body st
    .ok (some stmt, st)
  | .ProtoDeclaration native id args rets, st => do
    let ⟨args, st⟩ ← args.build extstbl st
    let ⟨rets, st⟩ ← rets.build extstbl st
    let ⟨stmt, st⟩ := Stmt_From_ProtoDecl native id args rets st
    .ok (some stmt, st)

def build_members : List Member → State → Res (List Stmt × State)
  | [], st => .ok ([], st)
  | member :: members, st => do
    let ⟨stmt, st⟩ ← member.build extstbl st
    let ⟨vec, st⟩ ← build_members members st
    .ok (stmt.toList ++ vec, st)

/-- `ExtendsOrEmpty`: no reference is taken to the types. -/
def build_super : List KlassType → State → List (Option TypeDesc) × State
  | [], st => ([], st)
  | type :: types, st =>
    let ⟨desc, st⟩ := type.build extstbl st
    let ⟨super, st⟩ := build_super types st
    (desc :: super, st)

end grammar

def Stmt.isVAR : Stmt → Bool
  | .VAR .. => true
  | _ => false

/-- The statements that `Parser_New_Variables` adds to those of the module. -/
def Parser_New_Variables : Option Stmt → State → Res (List Stmt × State)
  | none, st => .ok ([], st)
  | some (.VAR addr id type exp konst), st => .ok ([.VAR addr id type exp konst], st)
  | some (.LIST addr _ vec), st => do
    assert (vec.all Stmt.isVAR = true)
    let st ← st.free (Memory.Mfree addr)
    .ok (vec, st)
  | some (.VARLIST addr ids type exp konst), st => .ok ([.VARLIST addr ids type exp konst], st)
  | some _, _ => .error .assertion

namespace grammar

variable (extstbl : List CString)

def ModuleStatement.build : ModuleStatement → State → Res (List Stmt × State)
  | .EMPTY, st => .ok ([], st)
  | .VariableDeclaration ids type exps, st => do
    let ⟨type, st⟩ ← build_type extstbl type st
    let ⟨exps, st⟩ ← build_exprs extstbl exps st
    let ⟨stmt, st⟩ ← __Parser_Do_Variables ids type exps false st
    Parser_New_Variables stmt st
  | .ConstDeclaration ids type exps, st => do
    let ⟨type, st⟩ ← build_type extstbl type st
    let ⟨exps, st⟩ ← build_exprs extstbl exps st
    let ⟨stmt, st⟩ ← __Parser_Do_Variables ids type exps true st
    Parser_New_Variables stmt st
  | .FunctionDeclaration id args rets body, st => do
    let ⟨args, st⟩ ← args.build extstbl st
    let ⟨rets, st⟩ ← rets.build extstbl st
    let ⟨body, st⟩ ← build_stmts extstbl body st
    let ⟨stmt, st⟩ := Stmt_From_FuncDecl id args rets body st
    .ok ([stmt], st)
  | .ProtoDeclaration id args rets, st => do
    let ⟨args, st⟩ ← args.build extstbl st
    let ⟨rets, st⟩ ← rets.build extstbl st
    let ⟨stmt, st⟩ := Stmt_From_ProtoDecl true id args rets st
    .ok ([stmt], st)
  | .TypeDeclaration trait id super body, st => do
    let ⟨super, st⟩ := build_super extstbl super st
    let ⟨body, st⟩ ← build_members extstbl body st
    let ⟨stmt, st⟩ := Stmt_From_Klass trait id super body st
    .ok ([stmt], st)

/-- The statements of a module. -/
def build_module : List ModuleStatement → State → Res (List Stmt × State)
  | [], st => .ok ([], st)
  | stmt :: stmts, st => do
    let ⟨vec, st⟩ ← stmt.build extstbl st
    let ⟨vec', st⟩ ← build_module stmts st
    .ok (vec ++ vec', st)

end grammar

/-- The statements that are released with a statement: the members of a class are
statements of their own. -/
def released : Stmt → List Stmt
  | .CLASS addr id super body => body ++ [.CLASS addr id super body]
  | .TRAIT addr id super body => body ++ [.TRAIT addr id super body]
  | stmt => [stmt]

/-- Each statement is released once. -/
def release_module (stmts : List Stmt) (st : State) : Res State :=
  st.free (Free_Stmts (stmts.flatMap released))

end koala.ast
