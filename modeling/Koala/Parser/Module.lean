import Koala.Parser.Statement

open koala.typedesc

namespace koala.parser

set_option linter.style.nameCheck false

/-- What the grammar calls for a statement of a module. `none` is a statement in
which an error was reported. -/
inductive ModuleStatement where
  | Variables (stmt : Option Stmt)
  | Function (stmt : Option Stmt)
  | ClassOrTrait (stmt : Option Stmt)
  | error (pos : Position)

structure Module where
  filename : CString
  imports : Imports
  statements : List ModuleStatement

section build

variable [Build]

def __add_stmt (ps : ParserState) (stmt : Stmt) : ParserState :=
  { ps with stmts := ps.stmts ++ [stmt] }

/-- A name is added to the table of the current unit, or redeclared. -/
def declare (id : Ident) (add : STable Symbol → Option (STable Symbol)) (ps : ParserState) :
    Res ParserState := do
  let u ← deref ps.u
  let added ← ps.addSym u add
  match added with
  | some ps => do
    let ps ← ps.updateUnitSym u id.name fun sym =>
      { sym with filename := some ps.filename, pos := id.pos }
    .ok { ps with symbols := ps.symbols ++ [id] }
  | none => do
    let sym ← unit_symbol ps id.name
    .ok (Syntax_Error ps id.pos (.redeclared id.name sym.filename sym.pos))

def __new_var (id : Ident) (desc : Option TypeDesc) (konst : Bool) (ps : ParserState) :
    Res ParserState :=
  declare id (fun stbl =>
    if konst then STable_Add_Const stbl id.name desc else STable_Add_Var stbl id.name desc) ps

def new_vars (ids : List Ident) (desc : Option TypeDesc) (konst : Bool) (ps : ParserState) :
    Res ParserState :=
  match ids with
  | [] => .ok ps
  | id :: ids => do
    let ps ← __new_var id desc konst ps
    new_vars ids desc konst ps

/-- The declarations of a list are statements of the module. -/
def new_var_stmts : List Stmt → ParserState → Res ParserState
  | [], ps => .ok ps
  | .VAR id type exp konst :: vec, ps => do
    let ps ← __new_var id type konst (__add_stmt ps (.VAR id type exp konst))
    new_var_stmts vec ps
  | _ :: _, _ => .error .assertion

def Parser_New_Variables (stmt : Option Stmt) (ps : ParserState) : Res ParserState :=
  match stmt with
  | none => .ok ps
  | some (.VAR id type exp konst) =>
    __new_var id type konst (__add_stmt ps (.VAR id type exp konst))
  | some (.LIST _ vec) => new_var_stmts vec ps
  | some (.VARLIST ids type exp konst) =>
    new_vars ids type konst (__add_stmt ps (.VARLIST ids type exp konst))
  | some _ => .error .assertion

def __get_proto (args rets : List IdType) : Res TypeDesc := do
  let pdesc ← args.mapM fun idType => deref idType.type
  let rdesc ← rets.mapM fun idType => deref idType.type
  .ok (.proto pdesc rdesc)

def __parse_funcdecl (stmt : Stmt) (ps : ParserState) : Res ParserState :=
  match stmt with
  | .FUNC id args rets _ => do
    let proto ← __get_proto args rets
    declare id (fun stbl => STable_Add_Func stbl id.name proto) ps
  | .PROTO native id args rets => do
    let proto ← __get_proto args rets
    declare id (fun stbl =>
      if native then STable_Add_NFunc stbl id.name proto
      else STable_Add_IFunc stbl id.name proto) ps
  | _ => .error .assertion

def Parser_New_Function (stmt : Option Stmt) (ps : ParserState) : Res ParserState :=
  match stmt with
  | none => .ok ps
  | some stmt => __parse_funcdecl stmt (__add_stmt ps stmt)

/-- The fields and the functions of a class; its other members are passed over. -/
def new_members : List Stmt → ParserState → Res ParserState
  | [], ps => .ok ps
  | s :: body, ps => do
    let ps ← (match s with
      | .VAR id type _ konst => do
        assert (konst = false)
        __new_var id type false ps
      | .FUNC id args rets body => __parse_funcdecl (.FUNC id args rets body) ps
      | _ => .ok ps)
    new_members body ps

/-- `add` adds the symbol of the class. -/
def new_klass (id : Ident) (body : List Stmt) (add : STable Symbol → Option (STable Symbol))
    (ps : ParserState) : Res ParserState := do
  let u ← deref ps.u
  let before ← ps.get u id.name
  let ps ← declare id add ps
  match before with
  | some _ => .error .null
  | none => do
    let ps ← (Parser_Enter_Scope ps .SCOPE_CLASS).setUnit (some ⟨.pkg, id.name⟩)
      (some (.shared (.klass id.name)))
    let ps ← new_members body ps
    Parser_Exit_Scope ps

def Parser_New_ClassOrTrait (stmt : Option Stmt) (ps : ParserState) : Res ParserState :=
  match stmt with
  | none => .ok ps
  | some (.CLASS id super body) =>
    new_klass id body (fun stbl => STable_Add_Class stbl id.name)
      (__add_stmt ps (.CLASS id super body))
  | some (.TRAIT id super body) =>
    new_klass id body (fun stbl => STable_Add_Trait stbl id.name)
      (__add_stmt ps (.TRAIT id super body))
  | some _ => .error .assertion

def ModuleStatement.build (ps : ParserState) : ModuleStatement → Res ParserState
  | .Variables stmt => Parser_New_Variables stmt ps
  | .Function stmt => Parser_New_Function stmt ps
  | .ClassOrTrait stmt => Parser_New_ClassOrTrait stmt ps
  | .error pos => .ok (Syntax_Error ps pos .syntax_error)

/-- `yyparse`, as far as it changes the state. -/
def build_statements : List ModuleStatement → ParserState → Res ParserState
  | [], ps => .ok ps
  | stmt :: stmts, ps => do
    let ps ← stmt.build ps
    build_statements stmts ps

def New_Parser (pkg : STable Symbol) (module : Module) : ParserState where
  filename := module.filename
  imports := module.imports
  pkg := pkg
  extstbl := STable_New
  extdots := []
  symbols := []
  stmts := []
  u := none
  ustack := []
  depth := 0
  errors := []

/-- The scope of a module is entered over the table of the package. -/
def enter_module (ps : ParserState) : Res ParserState :=
  (Parser_Enter_Scope ps .SCOPE_MODULE).setUnit none (some (.shared .pkg))

def Build_AST (statements : List ModuleStatement) (ps : ParserState) : Res ParserState := do
  let ps ← enter_module ps
  let ps ← build_statements statements ps
  Parser_Exit_Scope ps

end build

section analyse

variable [Build] [Arith]

def Parse_Imports (ps : ParserState) : ParserState :=
  { ps with
    extstbl := ps.imports.extstbl
    extdots := ps.imports.extdots
    errors := ps.errors ++ ps.imports.errors }

/-- The error about a declared name that is imported too. -/
def conflict (ps : ParserState) (item : Ident) : Option SyntaxError := do
  let sym ← STable_Get ps.extstbl item.name
  some ⟨item.pos, .redeclared item.name sym.filename sym.pos⟩

def CheckConflictWithExternal (ps : ParserState) : ParserState :=
  { ps with errors := ps.errors ++ ps.symbols.filterMap (conflict ps) }

def Parse_AST (ps : ParserState) : Res ParserState := do
  let ps := CheckConflictWithExternal (Parse_Imports ps)
  let stmts := ps.stmts
  let ps ← enter_module { ps with stmts := [] }
  let ps ← parse_statements stmts ps
  Parser_Exit_Scope ps

/-- The modules of a package are built one after the other. -/
def build_symbols : List Module → STable Symbol → Res (List ParserState × STable Symbol)
  | [], pkg => .ok ([], pkg)
  | module :: modules, pkg => do
    let ps ← Build_AST module.statements (New_Parser pkg module)
    let ⟨rest, pkg⟩ ← build_symbols modules ps.pkg
    .ok (ps :: rest, pkg)

/-- Then every module is analysed over the same table. -/
def parse_package : List ParserState → STable Symbol → Res (List ParserState × STable Symbol)
  | [], pkg => .ok ([], pkg)
  | ps :: modules, pkg => do
    let ps ← Parse_AST { ps with pkg }
    let ⟨rest, pkg⟩ ← parse_package modules ps.pkg
    .ok (ps :: rest, pkg)

def compile (modules : List Module) : Res (List ParserState × STable Symbol) := do
  let ⟨built, pkg⟩ ← build_symbols modules STable_New
  parse_package built pkg

/-- The errors of all modules. -/
def errors (parsed : List ParserState) : Nat := (parsed.map ParserState.errnum).sum

end analyse

end koala.parser
