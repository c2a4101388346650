import Koala.Parser.Symbol

open koala.typedesc

namespace koala.parser

set_option linter.style.nameCheck false

/-- How the compiler was built: whether `NDEBUG` is defined. -/
class Build where
  NDEBUG : Bool

/-- `assert` does nothing where `NDEBUG` is defined. -/
def assert [Build] (p : Prop) [Decidable p] : Res Unit :=
  if p ∨ Build.NDEBUG = true then .ok () else .error .assertion

/-- The build that the repository configures. -/
instance Build.debug : Build := ⟨false⟩

/-- Following a pointer. -/
def deref {α : Type} : Option α → Res α
  | none => .error .null
  | some a => .ok a

inductive ScopeKind where
  | SCOPE_MODULE
  | SCOPE_CLASS
  | SCOPE_FUNCTION
  | SCOPE_BLOCK
  | SCOPE_CLOSURE
  deriving DecidableEq, Repr

/-- The symbol table of the package, or of one of its classes. -/
inductive TableRef where
  | pkg
  | klass (name : CString)
  deriving DecidableEq

/-- A symbol in one of these tables. -/
structure SymRef where
  stbl : TableRef
  name : CString
  deriving DecidableEq

/-- The table of a scope: one that outlives it, or its own. -/
inductive UnitTable where
  | shared (ref : TableRef)
  | own (stbl : STable Symbol)

structure ParserUnit where
  scope : ScopeKind
  sym : Option SymRef
  stbl : Option UnitTable
  block : Option CodeBlock
  jmps : Nat

/-- The errors that are reported, with what they say. -/
inductive Message where
  | no_symbol (name : CString)
  | multi_returns (name : CString)
  | not_in_package (name pkg : CString)
  | call_super
  | no_arguments
  | arguments (name : CString)
  | bool_to_int (bval : Bool)
  | string_to_int (str : CString)
  | delcared (name : CString) (depth : Nat) (scope : ScopeKind)
  | duplicated (name : CString)
  | no_type
  | not_constant
  | multiple_value
  | not_compatible
  | not_multi_value
  | mismatch (nleft nright : Nat)
  | returns (name : CString)
  | redeclared (name : CString) (filename : Option CString) (pos : Position)
  | syntax_error

/-- The format of a message. -/
def Message.format : Message → String
  | .no_symbol _ => "cannot find symbol '%s'"
  | .multi_returns _ => "'%s'is multi-returns' function"
  | .not_in_package _ _ => "'%s'is not found in '%s'"
  | .call_super => "call super __init__ must be in subclass's __init__"
  | .no_arguments => "__init__ function needs no arguments"
  | .arguments _ => "argument of function '%s' are not matched"
  | .bool_to_int _ => "cannot convert '%s'(bool) to int"
  | .string_to_int _ => "cannot convert '%s'(string) to int"
  | .delcared _ _ _ => "var '%s' is already delcared in scope-%d(%s)"
  | .duplicated _ => "var '%s' is duplicated"
  | .no_type => "cannot resolve right expression's type"
  | .not_constant => "not a valid constant expression"
  | .multiple_value => "multiple-value in single-value context"
  | .not_compatible => "right expression's type is not compatible"
  | .not_multi_value => "right expression is not a multi-value"
  | .mismatch _ _ => "assignment mismatch: %d variables but %d values"
  | .returns _ => "func %s: returns are not matched."
  | .redeclared _ _ _ => "'%s' redeclared,\n\tprevious declaration at %s:%d:%d"
  | .syntax_error => "invalid statement"

structure SyntaxError where
  pos : Position
  msg : Message

def MAX_ERRORS : Nat := 8

/-- What `Parse_Imports` finds for the imports of a module, and the errors it
reports. -/
structure Imports where
  extstbl : STable Symbol
  extdots : List (CString × Symbol)
  errors : List SyntaxError

/-- The state of the parser of one module. The symbol table of the package,
which all modules share, stands in it; `symbols` are the names the module
declares. -/
structure ParserState where
  filename : CString
  imports : Imports
  pkg : STable Symbol
  extstbl : STable Symbol
  extdots : List (CString × Symbol)
  symbols : List Ident
  stmts : List Stmt
  u : Option ParserUnit
  ustack : List ParserUnit
  depth : Nat
  errors : List SyntaxError

namespace ParserState

def errnum (ps : ParserState) : Nat := ps.errors.length

end ParserState

def Syntax_Error (ps : ParserState) (pos : Position) (msg : Message) : ParserState :=
  { ps with errors := ps.errors ++ [⟨pos, msg⟩] }

namespace ParserState

variable (ps : ParserState)

def table : TableRef → Option (STable Symbol)
  | .pkg => some ps.pkg
  | .klass name => do
    let sym ← STable_Get ps.pkg name
    sym.stbl

def updateTable (f : STable Symbol → STable Symbol) : TableRef → ParserState
  | .pkg => { ps with pkg := f ps.pkg }
  | .klass name =>
    { ps with pkg := ps.pkg.update name fun sym =>
        match sym.stbl with
        | none => sym
        | some stbl => sym.setStbl (f stbl) }

def unitTable : UnitTable → Option (STable Symbol)
  | .shared ref => ps.table ref
  | .own stbl => some stbl

/-- `STable_Get` in the table of a unit. -/
def get (u : ParserUnit) (name : CString) : Res (Option Symbol) :=
  match u.stbl with
  | none => .ok none
  | some table => do
    let stbl ← deref (ps.unitTable table)
    .ok (STable_Get stbl name)

def getSym (ref : SymRef) : Res Symbol := do
  let stbl ← deref (ps.table ref.stbl)
  deref (STable_Get stbl ref.name)

def updateSym (ref : SymRef) (f : Symbol → Symbol) : ParserState :=
  ps.updateTable (fun stbl => stbl.update ref.name f) ref.stbl

/-- A symbol is added to the table of the current unit; `none` when its name is
already there. -/
def addSym (u : ParserUnit) (add : STable Symbol → Option (STable Symbol)) :
    Res (Option ParserState) := do
  let table ← deref u.stbl
  let stbl ← deref (ps.unitTable table)
  match add stbl, table with
  | none, _ => .ok none
  | some stbl, .shared ref => .ok (some (ps.updateTable (fun _ => stbl) ref))
  | some stbl, .own _ => .ok (some { ps with u := some { u with stbl := some (.own stbl) } })

/-- A symbol in the table of the current unit is written. -/
def updateUnitSym (u : ParserUnit) (name : CString) (f : Symbol → Symbol) : Res ParserState := do
  let table ← deref u.stbl
  match table with
  | .shared ref => .ok (ps.updateTable (fun stbl => stbl.update name f) ref)
  | .own stbl => .ok { ps with u := some { u with stbl := some (.own (stbl.update name f)) } }

/-- Code is appended to the block of the current unit. -/
def emit (f : CodeBlock → CodeBlock) : Res ParserState := do
  let u ← deref ps.u
  let b ← deref u.block
  .ok { ps with u := some { u with block := some (f b) } }

end ParserState

section scopes

variable [Build]

def new_parser_unit (scope : ScopeKind) : ParserUnit where
  scope := scope
  sym := none
  stbl := none
  block := some CodeBlock_New
  jmps := 0

/-- Whether a table is that of the class `name`. -/
def UnitTable.isKlass (name : CString) : Option UnitTable → Bool
  | some (.shared ref) => ref = .klass name
  | _ => false

def free_parser_unit (u : ParserUnit) : Res Unit := do
  assert (u.sym = none)
  assert (u.stbl.isNone = true)
  assert (u.block = none)
  assert (u.jmps = 0)

def name__init__ : CString where
  bytes := [95, 95, 105, 110, 105, 116, 95, 95]
  nonul := by decide

/-- A function gets a `RETURN` when its own block has none. -/
def add_return (b : CodeBlock) : CodeBlock :=
  if b.ret then b else Inst_Append_NoArg b .RETURN

def Symbol.setCode (b : CodeBlock) (sym : Symbol) : Symbol :=
  match sym.data with
  | .SYM_FUNC locvec _ => { sym with data := .SYM_FUNC locvec (some b) }
  | _ => sym

/-- The first module that is left gives its code to `__init__`. -/
def merge_module (ps : ParserState) (u : ParserUnit) : Res ParserState := do
  let found ← ps.get u name__init__
  let left := some { u with block := none, stbl := none }
  match found with
  | some _ => .ok { ps with u := left }
  | none => do
    let added ← ps.addSym u fun stbl => STable_Add_Func stbl name__init__ (.proto [] [])
    assert (added.isSome = true)
    let ps ← deref added
    let b ← deref u.block
    let ps ← ps.updateUnitSym u name__init__ (Symbol.setCode b)
    .ok { ps with u := left }

def merge_class (ps : ParserState) (u : ParserUnit) : Res ParserState := do
  assert (u.sym.isSome = true)
  let ref ← deref u.sym
  let sym ← ps.getSym ref
  assert (sym.kind = .SYM_CLASS ∨ sym.kind = .SYM_TRAIT)
  assert (UnitTable.isKlass ref.name u.stbl = true)
  assert (u.block = none)
  .ok { ps with u := some { u with sym := none, stbl := none } }

/-- The code is saved in the symbol of the function. -/
def merge_function (ps : ParserState) (u : ParserUnit) : Res ParserState := do
  assert (u.sym.isSome = true)
  let ref ← deref u.sym
  let sym ← ps.getSym ref
  assert (sym.kind = .SYM_FUNC)
  let b ← deref u.block
  if sym.kind = .SYM_FUNC then
    let ps := ps.updateSym ref (Symbol.setCode (add_return b))
    .ok { ps with u := some { u with sym := none, stbl := none, block := none } }
  else
    .error .bounds

/-- The code goes to the block of the scope above. -/
def merge_block (ps : ParserState) (u : ParserUnit) : Res ParserState :=
  match ps.ustack with
  | [] => .error .null
  | uu :: ustack => do
    let b ← deref u.block
    let upb ← deref uu.block
    .ok { ps with
      u := some { u with stbl := none, block := none }
      ustack := { uu with block := some (CodeBlock_Merge b upb) } :: ustack }

def merge_parser_unit (ps : ParserState) : Res ParserState := do
  let u ← deref ps.u
  match u.scope with
  | .SCOPE_MODULE => merge_module ps u
  | .SCOPE_CLASS => merge_class ps u
  | .SCOPE_FUNCTION => merge_function ps u
  | .SCOPE_BLOCK => merge_block ps u
  | .SCOPE_CLOSURE => do
    assert False
    .ok ps

/-- The current unit goes to the stack. -/
def Parser_Enter_Scope (ps : ParserState) (scope : ScopeKind) : ParserState :=
  { ps with
    u := some (new_parser_unit scope)
    ustack := ps.u.toList ++ ps.ustack
    depth := ps.depth + 1 }

/-- `ps->u = ps->ustack`'s first unit. -/
def restore_unit (ps : ParserState) : ParserState :=
  { ps with u := ps.ustack.head?, ustack := ps.ustack.tail, depth := ps.depth - 1 }

def Parser_Exit_Scope (ps : ParserState) : Res ParserState := do
  let ps ← merge_parser_unit ps
  let u ← deref ps.u
  free_parser_unit u
  .ok (restore_unit ps)

/-- The unit that was just entered gets its symbol and its table. -/
def ParserState.setUnit (ps : ParserState) (sym : Option SymRef) (stbl : Option UnitTable) :
    Res ParserState := do
  let u ← deref ps.u
  .ok { ps with u := some { u with sym, stbl } }

end scopes

end koala.parser
