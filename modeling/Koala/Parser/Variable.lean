import Koala.Parser.Expression

open koala.typedesc

namespace koala.parser

set_option linter.style.nameCheck false

section code

variable [Build]

/-- The index of a constant or variable symbol. -/
def Symbol.index (sym : Symbol) : Res Nat :=
  match sym.data with
  | .SYM_CONST index _ => .ok index
  | .SYM_VAR index _ => .ok index
  | _ => .error .bounds

def code_const_expr (ctx : ExprCtx) (value : ConstValue) (ps : ParserState) : Res ParserState := do
  assert (ctx = .EXPR_LOAD)
  ps.emit fun b => Inst_Append b .LOAD_CONST (some value)

/-- Whether an identifier of this type that stands left of `right` is called. -/
def called (desc : TypeDesc) (right : Option Expr) : Option Nat :=
  match desc, right with
  | .proto _ _, some (.CALL args _ _) => some args.length
  | _, _ => none

/-- `right` is the expression that the identifier is the left part of. -/
def code_current_module_class (sym : Symbol) (desc : Option TypeDesc) (ctx : ExprCtx)
    (right : Option Expr) (ps : ParserState) : Res ParserState := do
  assert (ctx = .EXPR_LOAD)
  if sym.kind = .SYM_CONST ∨ sym.kind = .SYM_VAR then do
    let desc ← deref desc
    match called desc right with
    | some argc => ps.emit fun b => CODE_CALL b sym.name argc
    | none => ps.emit fun b => CODE_LOAD_FIELD b sym.name
  else do
    assert (sym.kind = .SYM_FUNC)
    match right with
    | some (.CALL args _ _) => ps.emit fun b => CODE_CALL b sym.name args.length
    | _ => ps.emit fun b => CODE_LOAD_FIELD b sym.name

def code_current_function_block_closure (sym : Symbol) (desc : Option TypeDesc) (ctx : ExprCtx)
    (right : Option Expr) (ps : ParserState) : Res ParserState := do
  assert (sym.kind = .SYM_VAR)
  let desc ← deref desc
  match called desc right with
  | some argc => do
    assert (ctx = .EXPR_LOAD)
    ps.emit fun b => CODE_CALL b sym.name argc
  | none => do
    let index ← sym.index
    match ctx with
    | .EXPR_LOAD => ps.emit fun b => CODE_LOAD b index
    | .EXPR_STORE => ps.emit fun b => CODE_STORE b index

/-- The code for a name of the module in a class is not written yet. -/
def code_up_class (sym : Symbol) (desc : Option TypeDesc) (ctx : ExprCtx) (scope : ScopeKind)
    (ps : ParserState) : Res ParserState := do
  assert (scope = .SCOPE_MODULE)
  assert (ctx = .EXPR_LOAD)
  if sym.kind = .SYM_CONST ∨ sym.kind = .SYM_VAR then do
    let _desc ← deref desc
    .ok ps
  else do
    assert (sym.kind = .SYM_FUNC)
    .ok ps

def code_up_function (ps : ParserState) : Res ParserState := .ok ps

def code_up_block (ps : ParserState) : Res ParserState := .ok ps

def code_up_closure (ps : ParserState) : Res ParserState := .ok ps

def Code_Ident_Expr (info : ExprInfo) (ctx : ExprCtx) (right : Option Expr) (ps : ParserState) :
    Res ParserState := do
  assert (info.desc.isSome = true ∧ info.sym.isSome = true)
  let u ← deref ps.u
  match info.where with
  | some (.CURRENT_SCOPE, _) => do
    let sym ← deref info.sym
    match u.scope with
    | .SCOPE_MODULE => code_current_module_class sym info.desc ctx right ps
    | .SCOPE_CLASS => code_current_module_class sym info.desc ctx right ps
    | .SCOPE_FUNCTION => code_current_function_block_closure sym info.desc ctx right ps
    | .SCOPE_BLOCK => code_current_function_block_closure sym info.desc ctx right ps
    | .SCOPE_CLOSURE => code_current_function_block_closure sym info.desc ctx right ps
  | some (.UP_SCOPE, scope) => do
    let sym ← deref info.sym
    match u.scope with
    | .SCOPE_MODULE => .ok ps
    | .SCOPE_CLASS => code_up_class sym info.desc ctx scope ps
    | .SCOPE_FUNCTION => code_up_function ps
    | .SCOPE_BLOCK => code_up_block ps
    | .SCOPE_CLOSURE => code_up_closure ps
  | none => do
    assert False
    .ok ps

def Code_Binary_Expr (info : ExprInfo) (ps : ParserState) : Res ParserState :=
  match info.val with
  | none => .ok ps
  | some val => code_const_expr .EXPR_LOAD val ps

def Code_Unary_Expr (ps : ParserState) : Res ParserState := .ok ps

def code_attribute_expr (ps : ParserState) : Res ParserState := .ok ps

def code_call_expr (ps : ParserState) : Res ParserState := .ok ps

/-- The code of an expression that is parsed. -/
def Code_Expression (exp : Expr) (info : ExprInfo) (ctx : ExprCtx) (right : Option Expr)
    (ps : ParserState) : Res ParserState :=
  if ps.errnum > MAX_ERRORS then .ok ps
  else
    match exp with
    | .HEAD .. => .ok ps
    | .CONST value _ => code_const_expr ctx value ps
    | .ID .. => Code_Ident_Expr info ctx right ps
    | .UNARY .. => Code_Unary_Expr ps
    | .BINARY .. => Code_Binary_Expr info ps
    | .ATTRIBUTE .. => code_attribute_expr ps
    | .CALL .. => code_call_expr ps

variable [Arith]

/-- An expression that is no part of another is parsed and its code generated. -/
def parser_visit_expr (exp : Expr) (ctx : ExprCtx) (ps : ParserState) :
    Res (ExprInfo × ParserState) := do
  let ⟨info, ps⟩ ← Parse_Expression exp ps
  let ps ← Code_Expression exp info ctx none ps
  .ok (info, ps)

end code

def __type_is_compatible (t1 t2 : Option TypeDesc) : Bool := TypeDesc_Equal t1 t2

section locals

variable (ps : ParserState)

/-- The unit of the function that a block is in, by its place in the stack. A
name that a scope up to that function has is an error. -/
def parse_block_variable (id : Ident) (depth i : Nat) :
    List ParserUnit → Res (Option Nat × ParserState)
  | [] => .ok (none, ps)
  | uu :: ustack => do
    let found ← ps.get uu id.name
    match found with
    | some _ => .ok (none, Syntax_Error ps id.pos (.delcared id.name (depth - 1) uu.scope))
    | none =>
      if uu.scope = .SCOPE_FUNCTION ∨ uu.scope = .SCOPE_CLOSURE then .ok (some i, ps)
      else parse_block_variable id (depth - 1) (i + 1) ustack

def Symbol.addLocvar (var : LocVar) (sym : Symbol) : Symbol :=
  match sym.data with
  | .SYM_FUNC locvec code => { sym with data := .SYM_FUNC (locvec ++ [var]) code }
  | _ => sym

/-- A variable is listed in the function symbol of a unit. -/
def append_locvar (sym : Option SymRef) (var : LocVar) : Res ParserState := do
  let ref ← deref sym
  let func ← ps.getSym ref
  if func.kind = .SYM_FUNC then .ok (ps.updateSym ref (Symbol.addLocvar var))
  else .error .bounds

/-- `uu->stbl->varindex++` for the unit number `i` of the stack. -/
def next_index (i : Nat) : Res (Nat × ParserUnit × ParserState) := do
  let uu ← deref ps.ustack[i]?
  match uu.stbl with
  | some (.own stbl) =>
    let uu' := { uu with stbl := some (.own { stbl with varindex := stbl.varindex + 1 }) }
    .ok (stbl.varindex, uu, { ps with ustack := ps.ustack.set i uu' })
  | _ => .error .null

def Symbol.setIndex (index : Nat) (sym : Symbol) : Symbol :=
  match sym.data with
  | .SYM_CONST _ value => { sym with data := .SYM_CONST index value }
  | .SYM_VAR _ value => { sym with data := .SYM_VAR index value }
  | _ => sym

end locals

section declare

variable [Build]

/-- The symbol of a name in the table of the current unit. -/
def unit_symbol (ps : ParserState) (name : CString) : Res Symbol := do
  let u ← deref ps.u
  let found ← ps.get u name
  deref found

/-- In a module or a class the symbol is there since the tree was built. -/
def update_variable (u : ParserUnit) (id : Ident) (desc : Option TypeDesc) (ps : ParserState) :
    Res (Option Symbol × ParserState) := do
  let found ← ps.get u id.name
  assert (found.isSome = true)
  let sym ← deref found
  assert (sym.kind = .SYM_CONST ∨ sym.kind = .SYM_VAR)
  match sym.desc with
  | some _ => .ok (some sym, ps)
  | none => do
    let ps ← ps.updateUnitSym u id.name fun sym => { sym with desc }
    .ok (some { sym with desc }, ps)

/-- A function has its own space for variables. -/
def add_function_variable (u : ParserUnit) (id : Ident) (desc : Option TypeDesc)
    (ps : ParserState) : Res (Option Symbol × ParserState) := do
  let added ← ps.addSym u fun stbl => STable_Add_Var stbl id.name desc
  match added with
  | none => .ok (none, Syntax_Error ps id.pos (.duplicated id.name))
  | some ps => do
    let sym ← unit_symbol ps id.name
    let index ← sym.index
    let ps ← append_locvar ps u.sym ⟨id.name, desc, index⟩
    .ok (some sym, ps)

/-- A variable of a block takes its index from the function. -/
def add_block_variable (u : ParserUnit) (id : Ident) (desc : Option TypeDesc)
    (ps : ParserState) : Res (Option Symbol × ParserState) := do
  let ⟨i, ps⟩ ← parse_block_variable ps id ps.depth 0 ps.ustack
  match i with
  | none => .ok (none, ps)
  | some i => do
    let added ← ps.addSym u fun stbl => STable_Add_Var stbl id.name desc
    match added with
    | none => .ok (none, Syntax_Error ps id.pos (.duplicated id.name))
    | some ps => do
      let ⟨index, uu, ps⟩ ← next_index ps i
      let u ← deref ps.u
      let ps ← ps.updateUnitSym u id.name (Symbol.setIndex index)
      let ps ← append_locvar ps uu.sym ⟨id.name, desc, index⟩
      let sym ← unit_symbol ps id.name
      .ok (some sym, ps)

def update_add_variable (id : Ident) (desc : Option TypeDesc) (ps : ParserState) :
    Res (Option Symbol × ParserState) := do
  let u ← deref ps.u
  match u.scope with
  | .SCOPE_MODULE => update_variable u id desc ps
  | .SCOPE_CLASS => update_variable u id desc ps
  | .SCOPE_FUNCTION => add_function_variable u id desc ps
  | .SCOPE_CLOSURE => add_function_variable u id desc ps
  | .SCOPE_BLOCK => add_block_variable u id desc ps

def Symbol.setValue (value : Option ConstValue) (sym : Symbol) : Symbol :=
  match sym.data with
  | .SYM_CONST index _ => { sym with data := .SYM_CONST index value }
  | .SYM_VAR index _ => { sym with data := .SYM_VAR index value }
  | _ => sym

def __save_const_to_symbol (name : CString) (exp : Expr) (info : ExprInfo) (ps : ParserState) :
    Res ParserState := do
  let u ← deref ps.u
  match exp with
  | .CONST value _ => ps.updateUnitSym u name (Symbol.setValue (some value))
  | .ID .. => do
    assert (info.sym.any (fun sym => sym.kind = .SYM_CONST) = true)
    let sym ← deref info.sym
    let value ← sym.value
    ps.updateUnitSym u name (Symbol.setValue value)
  | _ => do
    assert False
    .ok ps

/-- The type that a call has as a value: that of its only result. -/
def single_result (desc : TypeDesc) : Res (Option TypeDesc) := do
  let proto ← toProto desc
  match proto.ret with
  | [desc] => .ok (some desc)
  | _ => .ok none

/-- The type of a variable with an initialiser, unless an error is reported. -/
def check_initializer (type : Option TypeDesc) (exp : Expr) (info : ExprInfo) (konst : Bool)
    (ps : ParserState) : Res (Option TypeDesc × ParserState) :=
  match info.desc with
  | none => .ok (none, Syntax_Error ps exp.pos .no_type)
  | some desc =>
    if konst && !Expr_Is_Const exp info then
      .ok (none, Syntax_Error ps exp.pos .not_constant)
    else do
      let rdesc ← (if exp.Is_Call then single_result desc else .ok (some desc))
      match rdesc with
      | none => .ok (none, Syntax_Error ps exp.pos .multiple_value)
      | some rdesc =>
        match type with
        | none => .ok (some rdesc, ps)
        | some type =>
          if __type_is_compatible (some type) (some rdesc) then .ok (some type, ps)
          else .ok (none, Syntax_Error ps exp.pos .not_compatible)

/-- The value on the stack goes to the variable. -/
def code_variable (sym : Symbol) (ps : ParserState) : Res ParserState := do
  let u ← deref ps.u
  if u.scope = .SCOPE_MODULE ∨ u.scope = .SCOPE_CLASS then
    ps.emit fun b => CODE_STORE_FIELD b sym.name
  else do
    let index ← sym.index
    ps.emit fun b => CODE_STORE b index

variable [Arith]

def parse_variable (id : Ident) (type : Option TypeDesc) (rexp : Option Expr) (konst : Bool)
    (ps : ParserState) : Res ParserState :=
  match rexp with
  | none => do
    let ⟨var, ps⟩ ← update_add_variable id type ps
    -- a constant without an initialiser would be read through `NULL`
    if var.isSome && konst then .error .null else .ok ps
  | some exp => do
    let ⟨info, ps⟩ ← parser_visit_expr exp .EXPR_LOAD ps
    let ⟨desc, ps⟩ ← check_initializer type exp info konst ps
    match desc with
    | none => .ok ps
    | some desc => do
      let ⟨var, ps⟩ ← update_add_variable id (some desc) ps
      match var with
      | none => .ok ps
      | some sym => do
        let ps ← (if konst then __save_const_to_symbol sym.name exp info ps else .ok ps)
        code_variable sym ps

end declare

end koala.parser
