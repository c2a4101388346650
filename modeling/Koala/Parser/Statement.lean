import Koala.Parser.Variable

open koala.typedesc

namespace koala.parser

set_option linter.style.nameCheck false

/-- The functions that parse statements. -/
inductive ParseStmtFunc where
  | parse_vardecl_stmt
  | parse_varlistdecl_stmt
  | parse_assign_stmt
  | parse_assignlist_stmt
  | parse_funcdecl_stmt
  | parse_protodecl_stmt
  | parse_expr_stmt
  | parse_return_stmt
  | parse_list_stmt
  | parse_typealias_stmt
  | parse_class_stmt
  deriving DecidableEq

/-- The table that statements are looked up in by their kind. -/
def parse_stmt_funcs : List (Option ParseStmtFunc) :=
  [none,                            -- INVALID
    some .parse_vardecl_stmt,       -- VAR_KIND
    some .parse_varlistdecl_stmt,   -- VARLIST_KIND
    some .parse_assign_stmt,        -- ASSIGN_KIND
    some .parse_assignlist_stmt,    -- ASSIGNLIST_KIND
    some .parse_funcdecl_stmt,      -- FUNC_KIND
    some .parse_protodecl_stmt,     -- PROTO_KIND
    some .parse_expr_stmt,          -- EXPR_KIND
    some .parse_return_stmt,        -- RETURN_KIND
    some .parse_list_stmt,          -- LIST_KIND
    some .parse_typealias_stmt,     -- TYPEALIAS_KIND
    some .parse_class_stmt]         -- CLASS_KIND

section statements

variable [Build] [Arith]

def parse_vardecl_stmt (id : Ident) (type : Option TypeDesc) (exp : Option Expr) (konst : Bool)
    (ps : ParserState) : Res ParserState := parse_variable id type exp konst ps

/-- Every variable gets the type of its result. -/
def declare_results : List Ident → List TypeDesc → ParserState → Res ParserState
  | [], _, ps => .ok ps
  | id :: ids, descs, ps => do
    let ⟨var, ps⟩ ← update_add_variable id descs.head? ps
    match var with
    | none => .ok ps
    | some _ => declare_results ids descs.tail ps

def parse_varlistdecl_stmt (ids : List Ident) (type : Option TypeDesc) (rexp : Expr)
    (konst : Bool) (ps : ParserState) : Res ParserState := do
  assert (konst = false)
  if rexp.Is_Call = false then .ok (Syntax_Error ps rexp.pos .not_multi_value)
  else do
    let ⟨info, ps⟩ ← parser_visit_expr rexp .EXPR_LOAD ps
    match info.desc with
    | none => .ok ps
    | some desc => do
      let proto ← toProto desc
      if proto.ret.length ≠ ids.length then
        .ok (Syntax_Error ps rexp.pos (.mismatch ids.length proto.ret.length))
      else if type.any fun type =>
          proto.ret.any fun desc => !__type_is_compatible (some type) (some desc) then
        .ok (Syntax_Error ps rexp.pos .not_compatible)
      else do
        let u ← deref ps.u
        assert (u.scope ≠ .SCOPE_CLASS)
        declare_results ids proto.ret ps

/-- The types of the two sides, when both were visited. -/
def check_assign (rexp : Expr) (ldesc rdesc : Option TypeDesc) (ps : ParserState) :
    Res ParserState :=
  match rdesc with
  | none => .ok (Syntax_Error ps rexp.pos .no_type)
  | some desc => do
    let rdesc ← (if desc.kind = .TYPE_PROTO then single_result desc else .ok (some desc))
    match rdesc with
    | none => .ok (Syntax_Error ps rexp.pos .multiple_value)
    | some rdesc =>
      if __type_is_compatible ldesc (some rdesc) then .ok ps
      else .ok (Syntax_Error ps rexp.pos .not_compatible)

def parse_assign_stmt (op : AssignOpKind) (lexp rexp : Expr) (ps : ParserState) :
    Res ParserState :=
  if op = .OP_ASSIGN then do
    let ⟨ri, ps⟩ ← parser_visit_expr rexp .EXPR_LOAD ps
    let ⟨li, ps⟩ ← parser_visit_expr lexp .EXPR_STORE ps
    check_assign rexp li.desc ri.desc ps
  else do
    assert False
    let ⟨li, ps⟩ ← parser_visit_expr lexp .EXPR_STORE ps
    check_assign rexp li.desc rexp.desc ps

/-- Every expression on the left is visited and compared with its result. -/
def assign_results (rexp : Expr) : List Expr → List TypeDesc → ParserState → Res ParserState
  | [], _, ps => .ok ps
  | e :: left, descs, ps => do
    let ⟨info, ps⟩ ← parser_visit_expr e .EXPR_STORE ps
    if __type_is_compatible info.desc descs.head? then assign_results rexp left descs.tail ps
    else .ok (Syntax_Error ps rexp.pos .not_compatible)

def parse_assignlist_stmt (left : List Expr) (rexp : Expr) (ps : ParserState) :
    Res ParserState :=
  if rexp.Is_Call = false then .ok (Syntax_Error ps rexp.pos .not_multi_value)
  else do
    let ⟨info, ps⟩ ← parser_visit_expr rexp .EXPR_LOAD ps
    assert (info.desc.isSome = true)
    let desc ← deref info.desc
    let proto ← toProto desc
    if proto.ret.length ≠ left.length then
      .ok (Syntax_Error ps rexp.pos (.mismatch left.length proto.ret.length))
    else
      assign_results rexp left proto.ret ps

/-- Results are variables when they have a name. -/
def parse_results : List IdType → ParserState → Res ParserState
  | [], ps => .ok ps
  | idtype :: rets, ps =>
    match idtype.id with
    | none => parse_results rets ps
    | some id => do
      let ps ← parse_variable id idtype.type none false ps
      parse_results rets ps

def parse_parameters : List IdType → ParserState → Res ParserState
  | [], ps => .ok ps
  | idtype :: args, ps => do
    let id ← deref idtype.id
    let ps ← parse_variable id idtype.type none false ps
    parse_parameters args ps

/-- A function is entered: its unit gets a table of its own and its symbol. -/
def enter_function (id : Ident) (ps : ParserState) : Res ParserState := do
  let ps := Parser_Enter_Scope ps .SCOPE_FUNCTION
  let uu ← deref ps.ustack.head?
  assert (uu.scope = .SCOPE_MODULE ∨ uu.scope = .SCOPE_CLASS)
  let found ← ps.get uu id.name
  assert (found.isSome = true)
  match uu.stbl with
  | some (.shared stbl) =>
    ps.setUnit (found.map fun _ => ⟨stbl, id.name⟩) (some (.own STable_New))
  | _ => .error .bounds

def parse_funcdecl_stmt (id : Ident) (args rets : List IdType)
    (body : ParserState → Res ParserState) (ps : ParserState) : Res ParserState := do
  let ps ← enter_function id ps
  let ps ← parse_results rets ps
  let ps ← parse_parameters args ps
  let ps ← body ps
  Parser_Exit_Scope ps

def parse_protodecl_stmt (ps : ParserState) : Res ParserState := .ok ps

def parse_expr_stmt (exp : Expr) (ps : ParserState) : Res ParserState := do
  let ⟨_, ps⟩ ← parser_visit_expr exp .EXPR_LOAD ps
  .ok ps

/-- The symbol of the function that the current unit is in. -/
def function_symbol (ps : ParserState) : Res Symbol := do
  let u ← deref ps.u
  let unit ← (if u.scope = .SCOPE_FUNCTION then .ok u
    else
      match ps.ustack.find? fun uu => uu.scope = .SCOPE_FUNCTION with
      | some uu => .ok uu
      | none => .error .uninitialized)
  assert (unit.sym.isSome = true)
  let ref ← deref unit.sym
  let sym ← ps.getSym ref
  assert (sym.kind = .SYM_FUNC)
  .ok sym

def visit_exprs : List Expr → ParserState → Res (List ExprInfo × ParserState)
  | [], ps => .ok ([], ps)
  | e :: exps, ps => do
    let ⟨info, ps⟩ ← parser_visit_expr e .EXPR_LOAD ps
    let ⟨infos, ps⟩ ← visit_exprs exps ps
    .ok (info :: infos, ps)

def check_returns (desc : TypeDesc) (exps : List ExprInfo) : Res Bool := do
  let proto ← toProto desc
  __check_expr_types proto.ret exps

def parse_return_stmt (pos : Position) (exps : List Expr) (ps : ParserState) :
    Res ParserState := do
  let func ← function_symbol ps
  let ⟨infos, ps⟩ ← visit_exprs exps ps
  let desc ← deref func.desc
  let matched ← check_returns desc infos
  if matched then ps.emit fun b => { Inst_Append_NoArg b .RETURN with ret := true }
  else .ok (Syntax_Error ps pos (.returns func.name))

/-- The unit of a block gets a table of its own. -/
def enter_block (ps : ParserState) : Res ParserState :=
  (Parser_Enter_Scope ps .SCOPE_BLOCK).setUnit none (some (.own STable_New))

def parse_list_stmt (block : Bool) (vec : ParserState → Res ParserState) (ps : ParserState) :
    Res ParserState :=
  if block then do
    let ps ← enter_block ps
    let ps ← vec ps
    Parser_Exit_Scope ps
  else vec ps

def parse_typealias_stmt (ps : ParserState) : Res ParserState := .ok ps

/-- The unit of a class or a trait gets the symbol of the class and its table. -/
def enter_class (id : Ident) (ps : ParserState) : Res ParserState := do
  let u ← deref ps.u
  let found ← ps.get u id.name
  assert (found.isSome = true)
  let sym ← deref found
  match sym.stbl, u.stbl with
  | some _, some (.shared .pkg) =>
    (Parser_Enter_Scope ps .SCOPE_CLASS).setUnit (some ⟨.pkg, id.name⟩)
      (some (.shared (.klass id.name)))
  | _, _ => .error .bounds

def parse_class_stmt (id : Ident) (body : ParserState → Res ParserState) (ps : ParserState) :
    Res ParserState := do
  let ps ← enter_class id ps
  let ps ← body ps
  Parser_Exit_Scope ps

/-- A function of the table parses a statement; `body` parses the statements in
it. A statement of another kind than the function expects would be misread. -/
def ParseStmtFunc.run (f : ParseStmtFunc) (stmt : Stmt) (body : ParserState → Res ParserState)
    (ps : ParserState) : Res ParserState :=
  match f, stmt with
  | .parse_vardecl_stmt, .VAR id type exp konst =>
    koala.parser.parse_vardecl_stmt id type exp konst ps
  | .parse_varlistdecl_stmt, .VARLIST ids type exp konst =>
    koala.parser.parse_varlistdecl_stmt ids type exp konst ps
  | .parse_assign_stmt, .ASSIGN op left right =>
    koala.parser.parse_assign_stmt op left right ps
  | .parse_assignlist_stmt, .ASSIGNLIST left right =>
    koala.parser.parse_assignlist_stmt left right ps
  | .parse_funcdecl_stmt, .FUNC id args rets _ =>
    koala.parser.parse_funcdecl_stmt id args rets body ps
  | .parse_protodecl_stmt, _ => koala.parser.parse_protodecl_stmt ps
  | .parse_expr_stmt, .EXPR exp => koala.parser.parse_expr_stmt exp ps
  | .parse_return_stmt, .RETURN pos exps => koala.parser.parse_return_stmt pos exps ps
  | .parse_list_stmt, .LIST block _ => koala.parser.parse_list_stmt block body ps
  | .parse_typealias_stmt, _ => koala.parser.parse_typealias_stmt ps
  | .parse_class_stmt, .CLASS id _ _ => koala.parser.parse_class_stmt id body ps
  | .parse_class_stmt, .TRAIT id _ _ => koala.parser.parse_class_stmt id body ps
  | _, _ => .error .bounds

/-- `parse_statement`, given how the statements in a statement are parsed. -/
def dispatch (stmt : Stmt) (body : ParserState → Res ParserState) (ps : ParserState) :
    Res ParserState :=
  if ps.errnum > MAX_ERRORS then .ok ps
  else do
    assert (0 < stmt.kind ∧ stmt.kind < parse_stmt_funcs.length)
    let entry ← deref parse_stmt_funcs[stmt.kind]?
    assert (entry.isSome = true)
    let f ← deref entry
    f.run stmt body ps

mutual

def parse_statement : Stmt → ParserState → Res ParserState
  | .FUNC id args rets body => dispatch (.FUNC id args rets body) (parse_statements body)
  | .LIST block vec => dispatch (.LIST block vec) (parse_statements vec)
  | .CLASS id super body => dispatch (.CLASS id super body) (parse_statements body)
  | .TRAIT id super body => dispatch (.TRAIT id super body) (parse_statements body)
  | stmt => dispatch stmt .ok

def parse_statements : List Stmt → ParserState → Res ParserState
  | [] => .ok
  | stmt :: stmts => fun ps => do
    let ps ← parse_statement stmt ps
    parse_statements stmts ps

end

end statements

end koala.parser
