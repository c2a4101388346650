import Koala.Parser.Building
import Koala.Parser.Compiled

open koala.typedesc

namespace koala.parser

set_option linter.style.nameCheck false

mutual

/-- What the grammar allows in the body of a function. -/
def Stmt.IsLocal : Stmt → Prop
  | .VAR .. => True
  | .VARLIST .. => True
  | .ASSIGN .. => True
  | .ASSIGNLIST .. => True
  | .EXPR .. => True
  | .RETURN .. => True
  | .LIST _ vec => Stmt.AllLocal vec
  | _ => False

def Stmt.AllLocal : List Stmt → Prop
  | [] => True
  | stmt :: stmts => stmt.IsLocal ∧ Stmt.AllLocal stmts

end

namespace Stmt

/-- What the grammar allows of a function: the results have no names. -/
def LocalBody : Stmt → Prop
  | FUNC _ _ rets body => (∀ a ∈ rets, a.id = none) ∧ AllLocal body
  | _ => True

def Grammatical : Stmt → Prop
  | CLASS _ _ body => ∀ s ∈ body, s.IsMember ∧ s.LocalBody
  | TRAIT _ _ body => ∀ s ∈ body, s.IsMember ∧ s.LocalBody
  | stmt => stmt.LocalBody

theorem IsPlain.isTopLevel {s : Stmt} (h : s.IsPlain) : s.IsTopLevel := by
  cases s <;> first | exact h.elim | exact trivial

theorem IsDeclaration.isTopLevel {s : Stmt} (h : s.IsDeclaration) (hgram : s.Grammatical) :
    s.IsTopLevel := by
  rcases h with h | h
  · exact h.isTopLevel
  · cases s with
    | CLASS id super body => exact fun s hs => (hgram s hs).1
    | TRAIT id super body => exact fun s hs => (hgram s hs).1
    | _ => exact h.elim

end Stmt

/-- What the grammar allows of a module. -/
def Module.Grammatical (m : Module) : Prop := ∀ s ∈ m.stmts, s.Grammatical

/-- The declarations of a module, at module level, in a class or in a trait,
with the tables that they are in. -/
inductive Module.Contains (m : Module) : TableRef → Stmt → Prop
  | toplevel {stmt : Stmt} (h : stmt ∈ m.stmts) : m.Contains .pkg stmt
  | klass {stmt : Stmt} {id : Ident} {super : List TypeDesc} {body : List Stmt}
      (h : .CLASS id super body ∈ m.stmts) (hbody : stmt ∈ body) : m.Contains (.klass id.name) stmt
  | trait {stmt : Stmt} {id : Ident} {super : List TypeDesc} {body : List Stmt}
      (h : .TRAIT id super body ∈ m.stmts) (hbody : stmt ∈ body) : m.Contains (.klass id.name) stmt

theorem Module.Contains.localBody {m : Module} {t : TableRef} {id : Ident} {args rets : List IdType}
    {body : List Stmt} (h : m.Contains t (.FUNC id args rets body)) (hgram : m.Grammatical) :
    (∀ a ∈ rets, a.id = none) ∧ Stmt.AllLocal body := by
  cases h with
  | toplevel h => exact hgram _ h
  | klass h hbody => exact (hgram _ h _ hbody).2
  | trait h hbody => exact (hgram _ h _ hbody).2

section pass

variable [Build] [Arith]

mutual

/-- What the table is for: a statement is passed to the function that is written
for its kind. -/
def pass_statement : Stmt → ParserState → Res ParserState
  | .VAR id type exp konst => parse_vardecl_stmt id type exp konst
  | .VARLIST ids type exp konst => parse_varlistdecl_stmt ids type exp konst
  | .ASSIGN op left right => parse_assign_stmt op left right
  | .ASSIGNLIST left right => parse_assignlist_stmt left right
  | .FUNC id args rets body => parse_funcdecl_stmt id args rets (pass_statements body)
  | .PROTO .. => parse_protodecl_stmt
  | .EXPR exp => parse_expr_stmt exp
  | .RETURN pos exps => parse_return_stmt pos exps
  | .LIST block vec => parse_list_stmt block (pass_statements vec)
  | .CLASS id _ body => parse_class_stmt id (pass_statements body)
  | .TRAIT id _ body => parse_class_stmt id (pass_statements body)

/-- Every statement is passed once, in the order in which they stand. -/
def pass_statements : List Stmt → ParserState → Res ParserState
  | [] => .ok
  | stmt :: stmts => fun ps => do
    let ps ← pass_statement stmt ps
    pass_statements stmts ps

end

end pass

section passed

variable {ref : SymRef} {outer : List ParserUnit} {n : Nat} {ps ps' : ParserState}

theorem no_errors_after [Build] (hin : Within ref outer n ps) (hsteps : Steps ps ps')
    (herrors : ps'.errors = []) : ps.errors = [] := by
  obtain ⟨idx, hin⟩ := hin
  obtain ⟨_, _, hmoved, _⟩ := hsteps.inside hin
  exact no_errors_before hmoved.errors herrors

theorem Within.exit_errors [Build] (hin : Within ref outer (n + 1) ps)
    (hexit : Parser_Exit_Scope ps = .ok ps') : ps'.errors = ps.errors := by
  obtain ⟨idx, hin⟩ := hin
  exact (hin.exit hexit).2.2.2.2

variable [Build] [Arith]

mutual

/-- Without an error, the statements of a function are passed to the functions
written for their kinds. -/
theorem parse_statement_passed (stmt : Stmt) (hlocal : stmt.IsLocal) {ref : SymRef}
    {outer : List ParserUnit} {n : Nat} {ps ps' : ParserState} (hin : Within ref outer n ps)
    (hparse : parse_statement stmt ps = .ok ps') (herrors : ps'.errors = []) :
    pass_statement stmt ps = .ok ps' := by
  have hfew := few_of_none (no_errors_after hin (parse_statement_steps stmt hin ps' hparse) herrors)
  cases stmt with
  | VAR id type exp konst => exact dispatch_run rfl hfew hparse
  | VARLIST ids type exp konst => exact dispatch_run rfl hfew hparse
  | ASSIGN op left right => exact dispatch_run rfl hfew hparse
  | ASSIGNLIST left right => exact dispatch_run rfl hfew hparse
  | EXPR exp => exact dispatch_run rfl hfew hparse
  | RETURN pos exps => exact dispatch_run rfl hfew hparse
  | LIST block vec =>
    have hentry : parse_stmt_funcs[(Stmt.LIST block vec).kind]? = some (some .parse_list_stmt) :=
      rfl
    have hrun : parse_list_stmt block (parse_statements vec) ps = .ok ps' :=
      dispatch_run hentry hfew hparse
    change parse_list_stmt block (pass_statements vec) ps = .ok ps'
    cases block with
    | false => exact parse_statements_passed vec hlocal hin hrun herrors
    | true =>
      obtain ⟨ps₁, henter, hrun⟩ := bind_eq_ok_iff.mp hrun
      obtain ⟨ps₂, hvec, hexit⟩ := bind_eq_ok_iff.mp hrun
      obtain ⟨idx, hin⟩ := hin
      have hin₁ : Within ref outer (n + 1) ps₁ := ⟨idx, (hin.enter henter).1⟩
      have hin₂ := hin₁.steps (parse_statements_steps vec hin₁ ps₂ hvec)
      have hpass := parse_statements_passed vec hlocal hin₁ hvec
        ((hin₂.exit_errors hexit).symm.trans herrors)
      exact bind_eq_ok_iff.mpr ⟨ps₁, henter, bind_eq_ok_iff.mpr ⟨ps₂, hpass, hexit⟩⟩
  | _ => exact hlocal.elim

theorem parse_statements_passed (stmts : List Stmt) (hlocal : Stmt.AllLocal stmts) {ref : SymRef}
    {outer : List ParserUnit} {n : Nat} {ps ps' : ParserState} (hin : Within ref outer n ps)
    (hparse : parse_statements stmts ps = .ok ps') (herrors : ps'.errors = []) :
    pass_statements stmts ps = .ok ps' := by
  cases stmts with
  | nil => exact hparse
  | cons stmt stmts =>
    rw [parse_statements] at hparse
    obtain ⟨ps₁, hstmt, hrest⟩ := bind_eq_ok_iff.mp hparse
    have hin₁ := hin.steps (parse_statement_steps stmt hin ps₁ hstmt)
    have herrors₁ := no_errors_after hin₁ (parse_statements_steps stmts hin₁ ps' hrest) herrors
    exact bind_eq_ok_iff.mpr ⟨ps₁, parse_statement_passed stmt hlocal.1 hin hstmt herrors₁,
      parse_statements_passed stmts hlocal.2 hin₁ hrest herrors⟩

end

/-- Without an error, the body of a function is passed to the functions written
for the kinds of its statements. -/
theorem function_passed {uu : ParserUnit} {t : TableRef} {id : Ident} {sym : Symbol}
    {args rets : List IdType} {body : List Stmt} (hu : ps.u = some uu)
    (htable : uu.stbl = some (.shared t)) (hget : lookup ps.pkg ⟨t, id.name⟩ = some sym)
    (hlocal : Stmt.AllLocal body)
    (hrun : parse_funcdecl_stmt id args rets (parse_statements body) ps = .ok ps')
    (herrors : ps'.errors = []) :
    body_block id args rets (pass_statements body) ps =
      body_block id args rets (parse_statements body) ps := by
  obtain ⟨ps₁, henter, hrun⟩ := bind_eq_ok_iff.mp hrun
  obtain ⟨ps₂, hrets, hrun⟩ := bind_eq_ok_iff.mp hrun
  obtain ⟨ps₃, hargs, hrun⟩ := bind_eq_ok_iff.mp hrun
  obtain ⟨ps₄, hbody, hexit⟩ := bind_eq_ok_iff.mp hrun
  obtain rfl := enter_function_post hu htable hget ps₁ henter
  have hin₁ := inside_entered ps uu ⟨t, id.name⟩
  have hin₂ := Within.steps ⟨_, hin₁⟩ (parse_results_steps rets ⟨_, hin₁⟩ ps₂ hrets)
  have hin₃ := hin₂.steps (parse_parameters_steps args hin₂ ps₃ hargs)
  obtain ⟨_, hin₄⟩ := hin₃.steps (parse_statements_steps body hin₃ ps₄ hbody)
  have hpass := parse_statements_passed body hlocal hin₃ hbody
    ((exit_function_errors hin₄ hexit).trans herrors)
  unfold body_block
  simp only [henter, hrets, hargs, hbody, hpass, ok_bind]

end passed

end koala.parser
