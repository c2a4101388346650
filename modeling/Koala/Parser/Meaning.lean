import Koala.Eval.Fetch
import Koala.Parser.Symbol
import Koala.Scoped

open koala.eval koala.scoped

namespace koala.parser

set_option linter.style.nameCheck false

variable {α : Type}

section source

variable (lit : ConstValue → α)

/-- The value of a literal or of a variable that has one. -/
def Expr.value (env : Env CString α) : Expr → Option α
  | .CONST value _ => some (lit value)
  | .ID name _ => env.value name
  | _ => none

mutual

/-- What declarations, assignments and blocks of them do to the variables. -/
def Stmt.exec : Stmt → Env CString α → Option (Env CString α)
  | .VAR id _ exp _, env =>
    match exp with
    | none => some (env.declare id.name none)
    | some exp => (exp.value lit env).map fun v => env.declare id.name (some v)
  | .ASSIGN .OP_ASSIGN (.ID name _) right, env => do
    let v ← right.value lit env
    env.assign name v
  | .LIST block vec, env =>
    if block then (exec_all vec env.enter).map Env.leave else exec_all vec env
  | _, _ => none

def exec_all : List Stmt → Env CString α → Option (Env CString α)
  | [], env => some env
  | stmt :: stmts, env => do
    let env ← stmt.exec env
    exec_all stmts env

end

/-- The parameters are the first variables of a function, and the arguments
their values. -/
def parameters : List IdType → List α → Env CString α → Env CString α
  | ⟨some id, _⟩ :: args, v :: vals, env => parameters args vals (env.declare id.name (some v))
  | _, _, env => env

end source

section own

/-- The names of the parameters. -/
def parameter_names (args : List IdType) : List CString :=
  args.filterMap fun a => a.id.map Ident.name

/-- A literal, or one of the names. -/
def Expr.own (names : List CString) : Expr → Bool
  | .CONST .. => true
  | .ID name _ => name ∈ names
  | _ => false

mutual

/-- The names that a scope has after a statement which uses no names but those
of the scope it stands in. -/
def Stmt.own : Stmt → List CString → Option (List CString)
  | .VAR id _ exp _, names =>
    if exp.all (Expr.own names) then some (names ++ [id.name]) else none
  | .ASSIGN .OP_ASSIGN (.ID name _) right, names =>
    if name ∈ names ∧ right.own names then some names else none
  | .LIST block vec, names =>
    if block then (own_all vec []).map fun _ => names else own_all vec names
  | _, _ => none

def own_all : List Stmt → List CString → Option (List CString)
  | [], names => some names
  | stmt :: stmts, names => do
    let names ← stmt.own names
    own_all stmts names

end

end own

section names

variable {lit : ConstValue → α}

mutual

/-- What the names of a scope are after a statement, and that places are only
added. -/
theorem Stmt.exec_names (stmt : Stmt) {scope : Scope CString} {scopes : List (Scope CString)}
    {env env' : Env CString α} {names names' : List CString}
    (hown : stmt.own names = some names') (hexec : stmt.exec lit env = some env')
    (henv : env.scopes = scope :: scopes) (hnames : names = scope.map Prod.fst) :
    ∃ scope', env'.scopes = scope' :: scopes ∧ names' = scope'.map Prod.fst ∧
      env.store.length ≤ env'.store.length := by
  cases stmt with
  | VAR id type exp konst =>
    rw [Stmt.own] at hown
    split at hown
    · have hdeclared : ∃ value, env' = env.declare id.name value := by
        cases exp with
        | none =>
          cases hexec
          exact ⟨none, rfl⟩
        | some exp =>
          obtain ⟨v, -, rfl⟩ := Option.map_eq_some_iff.mp hexec
          exact ⟨some v, rfl⟩
      obtain ⟨value, rfl⟩ := hdeclared
      cases hown
      refine ⟨_, Env.declare_scopes henv id.name value, ?_, ?_⟩
      · rw [hnames, List.map_append]
        rfl
      · rw [Env.declare_store, List.length_append]
        exact Nat.le_add_right _ _
    · cases hown
  | ASSIGN op left right =>
    cases op with
    | OP_ASSIGN =>
      cases left with
      | ID name pos =>
        rw [Stmt.own] at hown
        split at hown
        · cases hown
          obtain ⟨v, -, hassign⟩ := Option.bind_eq_some_iff.mp hexec
          obtain ⟨place, -, rfl⟩ := Env.assign_eq_some_iff.mp hassign
          refine ⟨scope, henv, hnames, ?_⟩
          rw [List.length_set]
        · cases hown
      | _ => cases hown
    | _ => cases hown
  | LIST block vec =>
    rw [Stmt.own] at hown
    rw [Stmt.exec] at hexec
    cases block with
    | true =>
      obtain ⟨inner, hbody, rfl⟩ := Option.map_eq_some_iff.mp hown
      obtain ⟨env₁, hrun, rfl⟩ := Option.map_eq_some_iff.mp hexec
      have henter : env.enter.scopes = [] :: env.scopes := rfl
      obtain ⟨scope', hscopes, -, hlength⟩ := exec_all_names vec hbody hrun henter rfl
      refine ⟨scope, ?_, hnames, hlength⟩
      rw [Env.leave, hscopes, List.tail_cons, henv]
    | false => exact exec_all_names vec hown hexec henv hnames
  | _ => cases hown

theorem exec_all_names (stmts : List Stmt) {scope : Scope CString} {scopes : List (Scope CString)}
    {env env' : Env CString α} {names names' : List CString}
    (hown : own_all stmts names = some names') (hexec : exec_all lit stmts env = some env')
    (henv : env.scopes = scope :: scopes) (hnames : names = scope.map Prod.fst) :
    ∃ scope', env'.scopes = scope' :: scopes ∧ names' = scope'.map Prod.fst ∧
      env.store.length ≤ env'.store.length := by
  cases stmts with
  | nil =>
    rw [own_all] at hown
    rw [exec_all] at hexec
    cases hown
    cases hexec
    exact ⟨scope, henv, hnames, Nat.le_refl _⟩
  | cons stmt stmts =>
    rw [own_all] at hown
    rw [exec_all] at hexec
    obtain ⟨names₁, hfirst, hown⟩ := Option.bind_eq_some_iff.mp hown
    obtain ⟨env₁, hexec₁, hexec⟩ := Option.bind_eq_some_iff.mp hexec
    obtain ⟨scope₁, henv₁, hnames₁, hlength₁⟩ := Stmt.exec_names stmt hfirst hexec₁ henv hnames
    obtain ⟨scope', henv', hnames', hlength'⟩ := exec_all_names stmts hown hexec henv₁ hnames₁
    exact ⟨scope', henv', hnames', hlength₁.trans hlength'⟩

end

theorem parameters_eq {args : List IdType} {vals : List α} {env : Env CString α}
    {scope : Scope CString} {scopes : List (Scope CString)} (henv : env.scopes = scope :: scopes)
    (hids : ∀ a ∈ args, a.id.isSome = true) (hlength : vals.length = args.length) :
    ∃ scope', (parameters args vals env).scopes = scope' :: scopes ∧
      scope'.map Prod.fst = scope.map Prod.fst ++ parameter_names args ∧
      (parameters args vals env).store = env.store ++ vals.map some := by
  induction args generalizing vals env scope with
  | nil =>
    obtain rfl := List.length_eq_zero_iff.mp hlength
    exact ⟨scope, henv, by simp [parameter_names], by simp [parameters]⟩
  | cons a args ih =>
    obtain ⟨id, type⟩ := a
    obtain ⟨id, rfl⟩ := Option.isSome_iff_exists.mp (hids _ List.mem_cons_self)
    cases vals with
    | nil => cases hlength
    | cons v vals =>
      obtain ⟨scope', hscopes, hnames, hstore⟩ := ih (Env.declare_scopes henv id.name (some v))
        (fun a ha => hids a (List.mem_cons_of_mem _ ha)) (Nat.succ.inj hlength)
      refine ⟨scope', hscopes, ?_, ?_⟩
      · rw [hnames, List.map_append, List.append_assoc]
        rfl
      · rw [parameters, hstore, Env.declare_store, List.append_assoc]
        rfl

end names

section code

/-- An instruction as `eval_frame` fetches it, with the number of its constant. -/
def Inst.decoded (index : ConstValue → Nat) (i : Inst) : OpCode × List Nat :=
  (i.op, match i.op, i.arg with
    | .LOAD_CONST, some value => [index value]
    | .LOAD, some (.BASE_INT slot) => [slot.toNat]
    | .STORE, some (.BASE_INT slot) => [slot.toNat]
    | _, _ => [])

variable [Objects α] (consts : Option α) (index : ConstValue → Nat)

/-- The loop of `eval_frame` over instructions. -/
def run_insts : List Inst → Machine α → Res (Machine α)
  | [], _ => .error .bounds
  | i :: insts, m => do
    let ⟨loopflag, m⟩ ← execute consts (i.decoded index) m
    if loopflag then run_insts insts m else .ok m

end code

section runs

theorem PUSH_nil (ob : α) : PUSH [] ob = .ok [ob] := if_pos (Nat.zero_lt_succ 7)

variable [Objects α] {consts : Option α} {index : ConstValue → Nat} {cf : CallFrame α}
  {insts : List Inst} {ob : α}

/-- A constant is pushed. -/
theorem run_LOAD_CONST {value : ConstValue} (hconst : Tuple_Get consts (index value) = .ok (some ob)) :
    run_insts consts index (⟨.LOAD_CONST, some value, 0⟩ :: insts) (cf, []) =
      run_insts consts index insts (cf, [ob]) := by
  rw [run_insts]
  simp only [Inst.decoded, execute, load_const, hconst, OB_INCREF, ok_bind, PUSH_nil]
  rfl

variable {slot : BitVec 64}

/-- The value of a slot is pushed. -/
theorem run_LOAD (hsize : slot.toNat < cf.size) (hslot : cf.locvars slot.toNat = some ob) :
    run_insts consts index (⟨.LOAD, some (.BASE_INT slot), 0⟩ :: insts) (cf, []) =
      run_insts consts index insts (cf.touch [slot.toNat], [ob]) := by
  rw [run_insts]
  simp only [Inst.decoded, execute, load_local, load, if_pos hsize, hslot, OB_INCREF, ok_bind,
    PUSH_nil]
  rfl

/-- The value on the stack goes to a slot. -/
theorem run_STORE (hsize : slot.toNat < cf.size) :
    run_insts consts index (⟨.STORE, some (.BASE_INT slot), 0⟩ :: insts) (cf, [ob]) =
      run_insts consts index insts (cf.set slot.toNat ob, []) := by
  rw [run_insts]
  simp only [Inst.decoded, execute, store_local, POP, store, if_pos hsize, ok_bind]
  rfl

theorem run_RETURN (m : Machine α) :
    run_insts consts index (⟨.RETURN, none, 0⟩ :: insts) m = .ok m := rfl

end runs

end koala.parser
