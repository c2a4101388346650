import Koala.Parser.State

open koala.typedesc

namespace koala.parser

set_option linter.style.nameCheck false

/-- What the machine and the library decide about folded constants: the bytes
of another member read as an `int64`, floats, and the digits of a string. -/
class Arith where
  ival : ConstValue → BitVec 64
  ival_int : ∀ v, ival (.BASE_INT v) = v
  add_float : BitVec 64 → BitVec 64 → BitVec 64
  string_to_int64 : CString → Option (BitVec 64)

inductive ExprCtx where
  | EXPR_LOAD
  | EXPR_STORE
  deriving DecidableEq

/-- Where an identifier was found. -/
inductive Where where
  | CURRENT_SCOPE
  | UP_SCOPE
  deriving DecidableEq

/-- What parsing writes into an expression. -/
structure ExprInfo where
  desc : Option TypeDesc
  sym : Option Symbol
  val : Option ConstValue
  «where» : Option (Where × ScopeKind)

/-- The expression as it was built. -/
def ExprInfo.built (exp : Expr) : ExprInfo := ⟨exp.desc, none, none, none⟩

section ident

variable (ps : ParserState)

/-- The scopes above, from the innermost on. -/
def find_up (name : CString) : List ParserUnit → Res (Option (Symbol × ScopeKind))
  | [] => .ok none
  | uu :: ustack => do
    let found ← ps.get uu name
    match found with
    | some sym => .ok (some (sym, uu.scope))
    | none => find_up name ustack

def Parse_Ident_Expr (name : CString) (pos : Position) : Res (ExprInfo × ParserState) := do
  let u ← deref ps.u
  let found ← ps.get u name
  match found with
  | some sym => .ok (⟨sym.desc, some sym, none, some (.CURRENT_SCOPE, u.scope)⟩, ps)
  | none => do
    let up ← find_up ps name ps.ustack
    match up with
    | some (sym, scope) => .ok (⟨sym.desc, some sym, none, some (.UP_SCOPE, scope)⟩, ps)
    | none =>
      match STable_Get ps.extstbl name with
      | some sym => .ok (⟨sym.desc, some sym, none, some (.CURRENT_SCOPE, u.scope)⟩, ps)
      | none =>
        match ps.extdots.find? fun ref => ref.1 = name with
        | some (_, sym) => .ok (⟨sym.desc, some sym, none, some (.CURRENT_SCOPE, u.scope)⟩, ps)
        | none =>
          .ok (⟨none, none, none, none⟩, Syntax_Error ps pos (.no_symbol name))

end ident

section binary

/-- The value of a constant or variable symbol. -/
def Symbol.value (sym : Symbol) : Res (Option ConstValue) :=
  match sym.data with
  | .SYM_CONST _ value => .ok value
  | .SYM_VAR _ value => .ok value
  | _ => .error .bounds

def Expr_Is_Const (exp : Expr) (info : ExprInfo) : Bool :=
  match exp with
  | .CONST .. => true
  | .ID .. => info.sym.any fun sym => sym.kind = .SYM_CONST
  | .UNARY .. => info.val.isSome
  | .BINARY .. => info.val.isSome
  | _ => false

variable [Build]

def __get_constvalue (exp : Expr) (info : ExprInfo) : Res (Option ConstValue) :=
  match exp with
  | .BINARY .. => .ok info.val
  | .UNARY .. => .ok info.val
  | .ID .. => do
    let sym ← deref info.sym
    assert (sym.kind = .SYM_CONST)
    sym.value
  | .CONST value _ => .ok (some value)
  | _ => do
    assert False
    .error .bounds

variable [Arith]

/-- The `ival` of a value; that of a value of kind 0 is 0. -/
def ival : Option ConstValue → BitVec 64
  | none => 0
  | some val => Arith.ival val

def __optimize_int_add (lval rval : Option ConstValue) (pos : Position) (ps : ParserState) :
    Res (Option ConstValue × ParserState) :=
  match rval with
  | some (.BASE_INT v) => .ok (some (.BASE_INT (ival lval + v)), ps)
  | some (.BASE_FLOAT v) => .ok (some (.BASE_INT (Arith.add_float (ival lval) v)), ps)
  | some (.BASE_BOOL v) => .ok (some (.BASE_INT 0), Syntax_Error ps pos (.bool_to_int v))
  | some (.BASE_STRING str) =>
    match Arith.string_to_int64 str with
    | some v => .ok (some (.BASE_INT (ival lval + v)), ps)
    | none => .ok (some (.BASE_INT 0), Syntax_Error ps pos (.string_to_int str))
  | some (.BASE_CHAR v) => .ok (some (.BASE_INT (ival lval + v.setWidth 64)), ps)
  | none => do
    assert False
    .ok (some (.BASE_INT 0), ps)

/-- Only integers are subtracted; else the result is not set. -/
def __optimize_int_sub (lval rval : Option ConstValue) (ps : ParserState) :
    Res (Option ConstValue × ParserState) :=
  match rval with
  | some (.BASE_INT v) => .ok (some (.BASE_INT (ival lval - v)), ps)
  | some _ => .error .uninitialized
  | none => do
    assert False
    .error .uninitialized

/-- `__optimize_int_mul` and `__optimize_int_div`, which compute nothing. -/
def optimize_int_nothing (rval : Option ConstValue) (ps : ParserState) :
    Res (Option ConstValue × ParserState) := do
  assert (rval.isSome = true)
  .ok (none, ps)

def __optimize_int_mul (rval : Option ConstValue) (ps : ParserState) :
    Res (Option ConstValue × ParserState) := optimize_int_nothing rval ps

def __optimize_int_div (rval : Option ConstValue) (ps : ParserState) :
    Res (Option ConstValue × ParserState) := optimize_int_nothing rval ps

/-- All the primitive types of `biops` have the operations of `int`. -/
def __optimize_binary_expr (op : BinaryOpKind) (desc : Option TypeDesc)
    (lval rval : Option ConstValue) (pos : Position) (ps : ParserState) :
    Res (Option ConstValue × ParserState) := do
  let desc ← deref desc
  match desc with
  | .base .BASE_ERROR => .ok (none, ps)
  | .base .BASE_ANY => .ok (none, ps)
  | .base _ =>
    match op with
    | .BINARY_ADD => __optimize_int_add lval rval pos ps
    | .BINARY_SUB => __optimize_int_sub lval rval ps
    | .BINARY_MULT => __optimize_int_mul rval ps
    | .BINARY_DIV => __optimize_int_div rval ps
    | _ => do
      assert False
      .error .bounds
  | _ => .error .bounds

/-- A binary expression whose operands are parsed. -/
def parse_binary (op : BinaryOpKind) (built : Option TypeDesc) (lexp rexp : Expr)
    (li ri : ExprInfo) (ps : ParserState) : Res (ExprInfo × ParserState) := do
  assert (ri.desc.isSome = true)
  let desc := built.or li.desc
  if Expr_Is_Const lexp li && Expr_Is_Const rexp ri then do
    let lval ← __get_constvalue lexp li
    let rval ← __get_constvalue rexp ri
    let ⟨val, ps⟩ ← __optimize_binary_expr op desc lval rval rexp.pos ps
    .ok (⟨desc, none, val, none⟩, ps)
  else
    .ok (⟨desc, none, none, none⟩, ps)

end binary

section calls

variable [Build]

/-- The expressions from number `i` on; `varg` is the type of the further ones
once a `varg` was met. -/
def check_exprs (descs : List TypeDesc) : Nat → Option TypeDesc → List ExprInfo → Res Bool
  | _, _, [] => .ok true
  | i, some base, e :: exps =>
    if TypeDesc_Equal (some base) e.desc then check_exprs descs (i + 1) (some base) exps
    else .ok false
  | i, none, e :: exps => do
    let desc ← deref descs[i]?
    match desc with
    | .varg base => do
      assert (i + 1 = descs.length)
      if TypeDesc_Equal (some base) e.desc then check_exprs descs (i + 1) (some base) exps
      else .ok false
    | _ =>
      if TypeDesc_Equal (some desc) e.desc then check_exprs descs (i + 1) none exps
      else .ok false

def __check_expr_types (descs : List TypeDesc) (exps : List ExprInfo) : Res Bool :=
  if exps.length < descs.length then .ok false else check_exprs descs 0 none exps

/-- The members of a function type. -/
def toProto (desc : TypeDesc) : Res ProtoDesc := do
  assert (desc.kind = .TYPE_PROTO)
  match desc with
  | .proto arg ret => .ok ⟨arg, ret⟩
  | _ => .error .bounds

/-- Whether `super(...)` stands where it may. -/
def super_allowed (ps : ParserState) : Res Bool := do
  let u ← deref ps.u
  if u.scope ≠ .SCOPE_FUNCTION then .ok false
  else do
    let uu ← deref ps.ustack.head?
    if uu.scope ≠ .SCOPE_CLASS then .ok false
    else do
      let sym ← deref u.sym
      if sym.name ≠ name__init__ then .ok false
      else do
        let b ← deref u.block
        .ok b.insts.isEmpty

/-- A call whose arguments and function are parsed. -/
def check_call (args : List ExprInfo) (left : Expr) (li : ExprInfo) (ps : ParserState) :
    Res (ExprInfo × ParserState) :=
  match li.sym with
  | none => .ok (⟨none, none, none, none⟩, ps)
  | some sym => do
    let info : ExprInfo := ⟨li.desc, some sym, none, none⟩
    match sym.data with
    | .SYM_CLASS stbl =>
      match STable_Get stbl name__init__ with
      | none =>
        if args.isEmpty then .error .null
        else .ok (info, Syntax_Error ps left.pos .no_arguments)
      | some init => do
        let desc ← deref init.desc
        let proto ← toProto desc
        let matched ← __check_expr_types proto.arg args
        .ok (info, if matched then ps else Syntax_Error ps left.pos (.arguments sym.name))
    | _ => do
      let desc ← deref li.desc
      let proto ← toProto desc
      let matched ← __check_expr_types proto.arg args
      .ok (info, if matched then ps else Syntax_Error ps left.pos (.arguments sym.name))

/-- An attribute of an expression that is parsed. -/
def check_attribute (id : Ident) (left : Expr) (li : ExprInfo) (ps : ParserState) :
    Res (ExprInfo × ParserState) :=
  let info : ExprInfo := ⟨none, none, none, none⟩
  match li.sym with
  | none => .ok (info, ps)
  | some sym =>
    match sym.data with
    | .SYM_CONST .. | .SYM_VAR .. => do
      assert (sym.desc.isSome = true)
      let _desc ← deref sym.desc
      .ok (info, ps)
    | .SYM_FUNC .. | .SYM_NFUNC =>
      if left.Is_Call then do
        let desc ← deref sym.desc
        match desc with
        | .proto _ ret =>
          .ok (info, if ret.length ≠ 1 then Syntax_Error ps left.pos (.multi_returns sym.name)
            else ps)
        | _ => .error .bounds
      else .ok (info, ps)
    | .SYM_PKG stbl =>
      match STable_Get stbl id.name with
      | none => .ok (info, Syntax_Error ps id.pos (.not_in_package id.name sym.name))
      | some member => .ok (⟨member.desc, some member, none, none⟩, ps)
    | _ => do
      assert False
      .ok (info, ps)

end calls

section parse

variable [Build] [Arith]

mutual

def Parse_Expression : Expr → ParserState → Res (ExprInfo × ParserState)
  | exp, ps =>
    if ps.errnum > MAX_ERRORS then .ok (.built exp, ps)
    else
      match exp with
      | .HEAD .NIL_KIND _ => .ok (.built exp, ps)
      | .HEAD .. => do
        assert False
        .ok (.built exp, ps)
      | .CONST .. => .ok (.built exp, ps)
      | .ID name pos => Parse_Ident_Expr ps name pos
      | .UNARY .. => .ok (.built exp, ps)
      | .BINARY op lexp rexp _ => do
        let ⟨li, ps⟩ ← Parse_Expression lexp ps
        assert (li.desc.isSome = true)
        let ⟨ri, ps⟩ ← Parse_Expression rexp ps
        parse_binary op lexp.desc lexp rexp li ri ps
      | .ATTRIBUTE id left _ => do
        let ⟨li, ps⟩ ← Parse_Expression left ps
        check_attribute id left li ps
      | .CALL args left _ => do
        let allowed ← (if left.Is_Super then super_allowed ps else .ok true)
        if allowed then do
          let ⟨infos, ps⟩ ← Parse_Arguments args ps
          let ⟨li, ps⟩ ← Parse_Expression left ps
          check_call infos left li ps
        else
          .ok (.built exp, Syntax_Error ps left.pos .call_super)

/-- The last argument is parsed first. -/
def Parse_Arguments : List Expr → ParserState → Res (List ExprInfo × ParserState)
  | [], ps => .ok ([], ps)
  | e :: args, ps => do
    let ⟨infos, ps⟩ ← Parse_Arguments args ps
    let ⟨info, ps⟩ ← Parse_Expression e ps
    .ok (info :: infos, ps)

end

end parse

end koala.parser
