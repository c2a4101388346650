import Koala.Parser.Noticed
import Koala.Parser.OneValue
import Koala.Parser.Preserved

open koala.typedesc koala.eval koala.scoped

namespace koala.parser

set_option linter.style.nameCheck false

variable {α : Type} [Objects α]

/-- The constants that code loads, as the machine finds them. -/
structure Pool (α : Type) where
  consts : Option α
  index : ConstValue → Nat
  lit : ConstValue → α

/-- The constants of some code are in the pool. -/
def Pool.Has (pool : Pool α) (code : List Inst) : Prop :=
  ∀ value, ⟨.LOAD_CONST, some value, 0⟩ ∈ code →
    Tuple_Get pool.consts (pool.index value) = .ok (some (pool.lit value))

/-- A frame with room for the places of a program, whose slots hold their values. -/
structure HasRoom (cf : CallFrame α) (store : List (Option α)) (size : Nat) : Prop where
  holds : Holds cf.locvars store
  room : size < cf.size
  int : cf.size < 2 ^ 64

/-- Code that does to the slots what the program does to its variables, and
leaves the operand stack empty. -/
def Computes (pool : Pool α) (code : List Inst) (env env' : Env CString α) : Prop :=
  pool.Has code → ∀ cf, HasRoom cf env.store env'.store.length →
    ∃ cf', Holds cf'.locvars env'.store ∧ cf'.size = cf.size ∧
      ∀ rest, run_insts pool.consts pool.index (code ++ rest) (cf, []) =
        run_insts pool.consts pool.index rest (cf', [])

/-- An instruction that puts a value on the empty operand stack. -/
def Pushes (pool : Pool α) (i : Inst) (env : Env CString α) (v : α) : Prop :=
  pool.Has [i] → ∀ cf size, env.store.length ≤ size → HasRoom cf env.store size →
    ∃ cf', cf'.locvars = cf.locvars ∧ cf'.size = cf.size ∧
      ∀ rest, run_insts pool.consts pool.index (i :: rest) (cf, []) =
        run_insts pool.consts pool.index rest (cf', [v])

section machine

variable {pool : Pool α} {code code' : List Inst} {env env₁ env' : Env CString α} {i : Inst} {v : α}

theorem Pool.Has.left (h : pool.Has (code ++ code')) : pool.Has code :=
  fun value hmem => h value (List.mem_append_left _ hmem)

theorem Pool.Has.right (h : pool.Has (code ++ code')) : pool.Has code' :=
  fun value hmem => h value (List.mem_append_right _ hmem)

theorem Pool.Has.head (h : pool.Has (i :: code)) : pool.Has [i] :=
  fun value hmem => h value (List.mem_cons.mpr (.inl (List.mem_singleton.mp hmem)))

theorem Computes.refl (env : Env CString α) : Computes pool [] env env :=
  fun _ cf hready => ⟨cf, hready.holds, rfl, fun _ => rfl⟩

theorem Computes.trans (h : Computes pool code env env₁) (h' : Computes pool code' env₁ env')
    (hlength : env₁.store.length ≤ env'.store.length) :
    Computes pool (code ++ code') env env' := by
  intro hpool cf hready
  obtain ⟨cf₁, hholds₁, hsize₁, hrun₁⟩ := h hpool.left cf
    ⟨hready.holds, Nat.lt_of_le_of_lt hlength hready.room, hready.int⟩
  obtain ⟨cf', hholds', hsize', hrun'⟩ := h' hpool.right cf₁
    ⟨hholds₁, hsize₁ ▸ hready.room, hsize₁ ▸ hready.int⟩
  refine ⟨cf', hholds', hsize'.trans hsize₁, fun rest => ?_⟩
  rw [List.append_assoc, hrun₁, hrun']

theorem toNat_slot {index size : Nat} (hindex : index < size) (hsize : size < 2 ^ 64) :
    (BitVec.ofNat 64 index).toNat = index := by
  rw [BitVec.toNat_ofNat, Nat.mod_eq_of_lt (hindex.trans hsize)]

theorem pushes_const (value : ConstValue) :
    Pushes pool ⟨.LOAD_CONST, some value, 0⟩ env (pool.lit value) := by
  intro hpool cf size _ _
  have hconst := hpool value (List.mem_singleton.mpr rfl)
  exact ⟨cf, rfl, rfl, fun rest => run_LOAD_CONST hconst⟩

/-- A variable with a value is loaded from its slot. -/
theorem pushes_slot {place : Nat} (hvalue : env.store[place]? = some (some v)) :
    Pushes pool (slot_inst .EXPR_LOAD (place + 1)) env v := by
  intro _ cf size hlength hready
  obtain ⟨hplace, -⟩ := List.getElem?_eq_some_iff.mp hvalue
  have hroom : place + 1 < cf.size := by
    have hsize := hready.room
    omega
  have hnat := toNat_slot hroom hready.int
  refine ⟨cf.touch [place + 1], rfl, rfl, fun rest => ?_⟩
  have hslot : cf.locvars (BitVec.ofNat 64 (place + 1)).toNat = some v := by
    rw [hnat]
    exact hready.holds.value place _ hvalue
  have hload : run_insts pool.consts pool.index (slot_inst .EXPR_LOAD (place + 1) :: rest)
      (cf, []) = _ := run_LOAD (by rwa [hnat]) hslot
  rw [hload, hnat]

/-- A value that is pushed is stored in the slot of a place. -/
theorem Pushes.store (h : Pushes pool i env v) {place : Nat} {store : List (Option α)}
    (hplace : place < store.length) (hlength : env.store.length ≤ store.length)
    (hstore : ∀ slots : Nat → Option α, Holds slots env.store →
      Holds (Function.update slots (place + 1) (some v)) store)
    (hpool : pool.Has [i]) (cf : CallFrame α) (hready : HasRoom cf env.store store.length) :
    ∃ cf', Holds cf'.locvars store ∧ cf'.size = cf.size ∧
      ∀ rest, run_insts pool.consts pool.index ([i, slot_inst .EXPR_STORE (place + 1)] ++ rest)
        (cf, []) = run_insts pool.consts pool.index rest (cf', []) := by
  obtain ⟨cf₁, hlocvars, hsize, hrun⟩ := h hpool cf _ hlength hready
  have hroom : place + 1 < cf₁.size := by
    have hbound := hready.room
    omega
  have hnat := toNat_slot hroom (hsize ▸ hready.int)
  refine ⟨cf₁.set (place + 1) v, ?_, hsize, fun rest => ?_⟩
  · have hset : (cf₁.set (place + 1) v).locvars =
        Function.update cf.locvars (place + 1) (some v) := by
      rw [← hlocvars]
      rfl
    rw [hset]
    exact hstore _ hready.holds
  · have hstored : run_insts pool.consts pool.index (slot_inst .EXPR_STORE (place + 1) :: rest)
        (cf₁, [v]) = _ := run_STORE (by rwa [hnat])
    rw [hnat] at hstored
    exact (hrun _).trans hstored

/-- A variable is declared with a value. -/
theorem Pushes.declare (h : Pushes pool i env v) (name : CString) :
    Computes pool [i, slot_inst .EXPR_STORE (env.store.length + 1)] env
      (env.declare name (some v)) := by
  intro hpool cf hready
  have hpool₁ : pool.Has [i] := hpool.head
  have hlength : (env.store ++ [some v]).length = env.store.length + 1 := List.length_append
  exact h.store (by omega) (by omega) (fun _ hholds => hholds.init v) hpool₁ cf hready

/-- A variable gets another value. -/
theorem Pushes.assign (h : Pushes pool i env v) {name : CString} {place : Nat}
    (hfind : env.find name = some place) (hplace : place < env.store.length)
    (hassign : env.assign name v = some env') :
    Computes pool [i, slot_inst .EXPR_STORE (place + 1)] env env' := by
  obtain ⟨place', hfind', rfl⟩ := Env.assign_eq_some_iff.mp hassign
  cases hfind.symm.trans hfind'
  intro hpool cf hready
  have hpool₁ : pool.Has [i] := hpool.head
  have hlength : (env.store.set place (some v)).length = env.store.length := List.length_set
  exact h.store (by omega) (by omega) (fun _ hholds => hholds.assign v hplace) hpool₁ cf hready

/-- A variable without a value gets a slot that nothing was stored in. -/
theorem Computes.declare (name : CString) :
    Computes pool [] env (env.declare name none) :=
  fun _ cf hready => ⟨cf, hready.holds.declare, rfl, fun _ => rfl⟩

end machine

section statements

variable [Build] [Arith] {pool : Pool α} {ref : SymRef} {outer : List ParserUnit} {n : Nat}
  {ps ps' : ParserState} {env env' : Env CString α} {scope : Scope CString}
  {scopes : List (Scope CString)} {b : CodeBlock}

/-- What a statement means and the code that it gives. -/
def Simulated (pool : Pool α) (ref : SymRef) (outer : List ParserUnit) (n : Nat)
    (ps ps' : ParserState) (env env' : Env CString α) : Prop :=
  ∃ code, Extends code ps ps' ∧ InScopes ref outer n ps' env' ∧ Computes pool code env env'

/-- A literal or a name of the scope is one instruction, which pushes its value. -/
theorem visit_load (hscopes : InScopes ref outer n ps env) (henv : env.scopes = scope :: scopes)
    (hnum : ps.errnum ≤ MAX_ERRORS) {exp : Expr} {v : α}
    (hown : exp.own (scope.map Prod.fst) = true) (hvalue : exp.value pool.lit env = some v) :
    Post (fun r => ∃ i, r.2 = ps.append [i] [] ∧ Pushes pool i env v)
      (parser_visit_expr exp .EXPR_LOAD ps) := by
  cases exp with
  | CONST value pos =>
    cases hvalue
    exact (visit_CONST hnum).mono fun r hr => ⟨_, hr, pushes_const value⟩
  | ID name pos =>
    obtain ⟨u, scope₀, scopes₀, hu, henv₀, hshows, hscope⟩ := hscopes.unit
    cases henv.symm.trans henv₀
    obtain ⟨place, hfind⟩ := Scope.find_of_mem (of_decide_eq_true hown)
    obtain ⟨place', hfound, hstore⟩ := Env.value_eq_some_iff.mp hvalue
    cases hfound.symm.trans (Env.find_of_head henv hfind)
    exact (visit_own hu hscope hshows hfind hnum).mono fun r hr => ⟨_, hr, pushes_slot hstore⟩
  | _ => cases hown

omit [Objects α] [Arith] in
/-- The value of a constant of a function is written. -/
theorem __save_const_to_symbol_shows (hscopes : InScopes ref outer n ps env) (name : CString)
    (exp : Expr) (info : ExprInfo) :
    Post (fun ps' => InScopes ref outer n ps' env ∧ ps'.block = ps.block ∧
        ps'.ustack = ps.ustack ∧ ps'.errors = ps.errors)
      (__save_const_to_symbol name exp info ps) := by
  obtain ⟨hin, ⟨u, scope, scopes, hu, henv, ⟨stbl, hstbl, hshows⟩, habove⟩, hplaced⟩ := hscopes
  have hvalued : ∀ value, Post (fun ps' => InScopes ref outer n ps' env ∧ ps'.block = ps.block ∧
      ps'.ustack = ps.ustack ∧ ps'.errors = ps.errors)
      (ps.updateUnitSym u name (Symbol.setValue value)) := by
    intro value
    rw [own_updateUnitSym hstbl]
    refine Post.ok ⟨⟨?_, ⟨_, scope, scopes, rfl, henv, ⟨_, rfl, hshows.setValue value⟩, habove⟩,
      hplaced⟩, ?_, rfl, rfl⟩
    · refine hin.write hu rfl rfl (fun hb => ⟨hb.scope, ⟨_, rfl⟩, hb.returns⟩)
        fun hf => ⟨hf.scope, hf.sym, ⟨_, rfl, ?_⟩, hf.returns⟩
      obtain ⟨stbl', hstbl', hindex⟩ := hf.own
      cases hstbl.symm.trans hstbl'
      exact hindex
    · rw [ParserState.block, ParserState.block, hu]
      rfl
  unfold __save_const_to_symbol
  rw [hu]
  refine Post.bind fun u' hu' => ?_
  cases hu'
  split
  · exact hvalued _
  · exact Post.bind fun _ _ => Post.bind fun sym _ => Post.bind fun value _ => hvalued value
  · exact Post.bind fun _ _ => Post.ok ⟨⟨hin, ⟨u, scope, scopes, hu, henv, ⟨stbl, hstbl, hshows⟩,
      habove⟩, hplaced⟩, rfl, rfl, rfl⟩

omit [Objects α] [Build] [Arith] in
/-- The value on the stack is stored in the slot of a variable. -/
theorem code_variable_slot (hscopes : InScopes ref outer n ps env) {sym : Symbol} {index : Nat}
    (hslot : sym.slot = some index) :
    Post (fun ps' => ps' = ps.append [slot_inst .EXPR_STORE index] []) (code_variable sym ps) := by
  obtain ⟨u, _, _, hu, _, _, hscope⟩ := hscopes.unit
  obtain ⟨value, hdata⟩ := Symbol.slot_eq_some_iff.mp hslot
  unfold code_variable
  rw [hu]
  refine Post.bind fun u' hu' => Post.ite (fun hmodule => ?_) fun _ => Post.bind fun i hi => ?_
  · cases hu'
    rcases hmodule with hmodule | hmodule <;> rcases hscope with hscope | hscope
    all_goals
      rw [hscope] at hmodule
      cases hmodule
  · rw [Symbol.index, hdata] at hi
    cases hi
    exact fun _ h => emit_append (fun _ => rfl) h

omit [Objects α] [Arith] in
/-- What is left to do when a variable was added. -/
theorem store_variable_slot (hscopes : InScopes ref outer n ps env) {sym : Symbol} {index : Nat}
    (hslot : sym.slot = some index) {konst : Bool} {exp : Expr} {info : ExprInfo} :
    Post (fun ps' => InScopes ref outer n ps' env ∧
        ps'.block = ps.block.map (fun b => b.append [slot_inst .EXPR_STORE index]) ∧
        ps'.ustack = ps.ustack)
      ((if konst then __save_const_to_symbol sym.name exp info ps else .ok ps) >>=
        fun ps => code_variable sym ps) := by
  refine Post.bind fun ps₁ hsave => fun ps' hcode => ?_
  have hsaved : InScopes ref outer n ps₁ env ∧ ps₁.block = ps.block ∧ ps₁.ustack = ps.ustack := by
    split at hsave
    · obtain ⟨hscopes₁, hblock₁, habove₁, -⟩ :=
        __save_const_to_symbol_shows hscopes sym.name exp info ps₁ hsave
      exact ⟨hscopes₁, hblock₁, habove₁⟩
    · cases hsave
      exact ⟨hscopes, rfl, rfl⟩
  obtain ⟨hscopes₁, hblock₁, habove₁⟩ := hsaved
  obtain rfl := code_variable_slot hscopes₁ hslot ps' hcode
  exact ⟨hscopes₁.append _ _, by rw [ParserState.append_block, hblock₁], habove₁⟩

omit [Objects α] [Arith] in
theorem store_variable_errors (hin : Within ref outer n ps) {sym : Symbol} {konst : Bool}
    {exp : Expr} {info : ExprInfo} :
    Post (fun ps' => ps.errors <+: ps'.errors)
      ((if konst then __save_const_to_symbol sym.name exp info ps else .ok ps) >>=
        fun ps => code_variable sym ps) := by
  refine Post.bind fun ps₁ hsave => fun ps' hcode => ?_
  have hsaved : Steps ps ps₁ := by
    split at hsave
    · exact __save_const_to_symbol_steps hin sym.name exp info ps₁ hsave
    · cases hsave
      exact .refl ps
  exact (hin.errors hsaved).trans (code_variable_coded ps' hcode).errors

omit [Objects α] [Build] [Arith] in
theorem append_errors (ps : ParserState) (insts : List Inst) :
    (ps.append insts []).errors = ps.errors := List.append_nil ps.errors

/-- A variable is declared. -/
theorem parse_variable_simulated (hscopes : InScopes ref outer n ps env)
    (henv : env.scopes = scope :: scopes) (hblock : ps.block = some b) (hfew : ps.errnum ≤ MAX_ERRORS)
    (id : Ident) (type : Option TypeDesc) {exp : Option Expr} (konst : Bool)
    (hown : exp.all (Expr.own (scope.map Prod.fst)) = true)
    (hexec : (Stmt.VAR id type exp konst).exec pool.lit env = some env') :
    Post (fun ps' => ps'.errors = ps.errors → Simulated pool ref outer n ps ps' env env')
      (parse_variable id type exp konst ps) := by
  cases exp with
  | none =>
    rw [Stmt.exec] at hexec
    cases hexec
    refine Post.bind fun r hr => Post.ite (fun _ => Post.error) fun _ => Post.ok fun herrors => ?_
    obtain ⟨sym, -, -, -, hscopes', hblock', habove⟩ :=
      update_add_variable_declares hscopes none r hr herrors
    refine ⟨[], ⟨⟨b, hblock, ?_⟩, habove⟩, hscopes', .declare id.name⟩
    rw [hblock', hblock, CodeBlock.append_nil]
  | some exp =>
    rw [Stmt.exec] at hexec
    obtain ⟨v, hvalue, rfl⟩ := Option.map_eq_some_iff.mp hexec
    refine Post.bind fun r hr => ?_
    obtain ⟨i, hps₁, hpushes⟩ :=
      visit_load hscopes henv hfew hown hvalue r hr
    have hscopes₁ : InScopes ref outer n r.2 env := hps₁ ▸ hscopes.append [i] []
    have herrors₁ : r.2.errors = ps.errors := by rw [hps₁, append_errors]
    have hblock₁ : r.2.block = some (b.append [i]) := by
      rw [hps₁, ParserState.append_block, hblock, Option.map_some]
    have habove₁ : r.2.ustack = ps.ustack := by rw [hps₁]; rfl
    obtain ⟨info, ps₁⟩ := r
    dsimp only at hscopes₁ herrors₁ hblock₁ habove₁ ⊢
    refine Post.bind fun d hd => ?_
    rcases check_initializer_post d hd with ⟨hsome, hsame⟩ | ⟨hnone, pos, msg, herror⟩
    · obtain ⟨desc, hdesc⟩ := Option.isSome_iff_exists.mp hsome
      obtain ⟨_, ps₂⟩ := d
      dsimp only at hsame hdesc ⊢
      subst hsame hdesc
      dsimp only
      refine Post.bind fun var hvar => ?_
      have hdeclares := update_add_variable_declares hscopes₁ (some v) var hvar
      obtain ⟨found, ps₃⟩ := var
      dsimp only at hdeclares ⊢
      cases found with
      | none =>
        refine Post.ok fun herrors => ?_
        obtain ⟨sym, hsym, -⟩ := hdeclares (herrors.trans herrors₁.symm)
        cases hsym
      | some sym =>
        intro ps' hlast herrors
        have hwithin : Within ref outer n ps₂ := ⟨_, hscopes₁.inside⟩
        have hsteps := update_add_variable_steps hwithin id (some desc) _ hvar
        have hlater : ps₃.errors <+: ps'.errors :=
          store_variable_errors (hwithin.steps hsteps) ps' hlast
        obtain ⟨herrors₃, -⟩ :=
          errors_between (hwithin.errors hsteps) hlater (herrors.trans herrors₁.symm)
        obtain ⟨sym', hsym, -, hslot, hscopes₂, hblock₂, habove₂⟩ := hdeclares herrors₃
        cases hsym
        obtain ⟨hscopes', hblock', habove'⟩ := store_variable_slot hscopes₂ hslot ps' hlast
        refine ⟨[i, slot_inst .EXPR_STORE (env.store.length + 1)], ⟨⟨b, hblock, ?_⟩, ?_⟩, hscopes',
          hpushes.declare id.name⟩
        · rw [hblock', hblock₂, hblock₁, Option.map_some, CodeBlock.append_append]
          rfl
        · rw [habove', habove₂, habove₁]
    · obtain ⟨d₁, d₂⟩ := d
      dsimp only at hnone herror
      subst hnone herror
      refine Post.ok fun herrors => ?_
      have hlength := congrArg List.length (herrors.trans herrors₁.symm)
      simp [Syntax_Error] at hlength

/-- A variable of the scope gets the value of a literal or a name. -/
theorem parse_assign_simulated (hscopes : InScopes ref outer n ps env)
    (henv : env.scopes = scope :: scopes) (hblock : ps.block = some b) (hfew : ps.errnum ≤ MAX_ERRORS)
    {name : CString} {pos : Position} {right : Expr} (hname : name ∈ scope.map Prod.fst)
    (hown : right.own (scope.map Prod.fst) = true)
    (hexec : (Stmt.ASSIGN .OP_ASSIGN (.ID name pos) right).exec pool.lit env = some env') :
    Post (fun ps' => ps'.errors = ps.errors → Simulated pool ref outer n ps ps' env env')
      (parse_assign_stmt .OP_ASSIGN (.ID name pos) right ps) := by
  obtain ⟨v, hvalue, hassign⟩ := Option.bind_eq_some_iff.mp hexec
  obtain ⟨place, hfind⟩ := Scope.find_of_mem hname
  have hfound := Env.find_of_head henv hfind
  unfold parse_assign_stmt
  rw [if_pos rfl]
  refine Post.bind fun r hr => ?_
  obtain ⟨i, hps₁, hpushes⟩ := visit_load hscopes henv hfew hown hvalue r hr
  obtain ⟨info, ps₁⟩ := r
  dsimp only at hps₁ ⊢
  have herrors₁ : ps₁.errors = ps.errors := by rw [hps₁, append_errors]
  have hfew₁ : ps₁.errnum ≤ MAX_ERRORS := by rwa [ParserState.errnum, herrors₁]
  have hscopes₁ : InScopes ref outer n ps₁ env := hps₁ ▸ hscopes.append [i] []
  obtain ⟨u, scope₁, scopes₁, hu, henv₁, hshows, hscope⟩ := hscopes₁.unit
  cases henv.symm.trans henv₁
  refine Post.bind fun l hl => ?_
  have hps₂ := visit_own hu hscope hshows hfind hfew₁ l hl
  obtain ⟨linfo, ps₂⟩ := l
  dsimp only at hps₂ ⊢
  intro ps' hcheck herrors
  have hreported := check_assign_reported ps' hcheck
  have herrors₂ : ps₂.errors = ps.errors := by rw [hps₂, append_errors, herrors₁]
  obtain rfl : ps' = ps₂ := hreported.eq_of_errors (herrors.trans herrors₂.symm)
  have hcode : ps' = ps.append [i, slot_inst .EXPR_STORE (place + 1)] [] := by
    rw [hps₂, hps₁, ParserState.append_append]
    rfl
  have hcomputes := hpushes.assign hfound (hscopes.placed.find henv hfind) hassign
  obtain ⟨_, _, rfl⟩ := Env.assign_eq_some_iff.mp hassign
  subst hcode
  exact ⟨_, .append hblock _ _, (hscopes.append _ _).assign _ v, hcomputes⟩

mutual

/-- The code of a statement does what the statement means. -/
theorem parse_statement_simulated (stmt : Stmt) {n : Nat} {ps : ParserState}
    {env env' : Env CString α} {scope : Scope CString} {scopes : List (Scope CString)}
    {names : List CString} {b : CodeBlock} (hscopes : InScopes ref outer n ps env)
    (henv : env.scopes = scope :: scopes) (hblock : ps.block = some b) (hfew : ps.errnum ≤ MAX_ERRORS)
    (hown : stmt.own (scope.map Prod.fst) = some names)
    (hexec : stmt.exec pool.lit env = some env') :
    Post (fun ps' => ps'.errors = ps.errors → Simulated pool ref outer n ps ps' env env')
      (parse_statement stmt ps) := by
  have hmany : ¬ ps.errnum > MAX_ERRORS := Nat.not_lt.mpr hfew
  cases stmt with
  | VAR id type exp konst =>
    rw [Stmt.own] at hown
    split at hown
    · next hnames =>
      intro ps' hparse
      have hrun := dispatch_run rfl hmany hparse
      exact parse_variable_simulated hscopes henv hblock hfew id type konst hnames hexec ps' hrun
    · cases hown
  | ASSIGN op left right =>
    cases op with
    | OP_ASSIGN =>
      cases left with
      | ID name pos =>
        rw [Stmt.own] at hown
        split at hown
        · next hnames =>
          intro ps' hparse
          have hrun := dispatch_run rfl hmany hparse
          exact parse_assign_simulated hscopes henv hblock hfew hnames.1 hnames.2 hexec ps' hrun
        · cases hown
      | _ => cases hown
    | _ => cases hown
  | LIST block vec =>
    rw [Stmt.own] at hown
    rw [Stmt.exec] at hexec
    intro ps' hparse herrors
    have hrun := dispatch_run (f := .parse_list_stmt) rfl hmany hparse
    cases block with
    | false =>
      exact parse_statements_simulated vec hscopes henv hblock hfew hown hexec ps' hrun herrors
    | true =>
      obtain ⟨inner, hbody, -⟩ := Option.map_eq_some_iff.mp hown
      obtain ⟨env₂, hinner, rfl⟩ := Option.map_eq_some_iff.mp hexec
      obtain ⟨ps₁, henter, hrun⟩ := bind_eq_ok_iff.mp hrun
      obtain ⟨ps₂, hvec, hexit⟩ := bind_eq_ok_iff.mp hrun
      obtain ⟨hscopes₁, hblock₁, herrors₁, habove₁⟩ := hscopes.enter henter
      have hfew₁ : ps₁.errnum ≤ MAX_ERRORS := by rwa [ParserState.errnum, herrors₁]
      have hwithin₁ : Within ref outer (n + 1) ps₁ := ⟨_, hscopes₁.inside⟩
      obtain ⟨_, hin₂⟩ := hwithin₁.steps (parse_statements_steps vec hwithin₁ ps₂ hvec)
      obtain ⟨-, -, -, -, herrors₂⟩ := hin₂.exit hexit
      obtain ⟨code, hextends, hscopes₂, hcomputes⟩ := parse_statements_simulated vec hscopes₁ rfl
        hblock₁ hfew₁ hbody hinner ps₂ hvec ((herrors₂.symm.trans herrors).trans herrors₁.symm)
      obtain ⟨b₁, hnew, hblock₂⟩ := hextends.block
      cases hnew.symm.trans hblock₁
      rw [hblock] at habove₁
      obtain ⟨hscopes', hblock', -, habove'⟩ :=
        hscopes₂.exit hblock₂ (hextends.above.trans habove₁) hexit
      exact ⟨code, ⟨⟨b, hblock, hblock'⟩, habove'⟩, hscopes', hcomputes⟩
  | _ => cases hown

theorem parse_statements_simulated (stmts : List Stmt) {n : Nat} {ps : ParserState}
    {env env' : Env CString α} {scope : Scope CString} {scopes : List (Scope CString)}
    {names : List CString} {b : CodeBlock} (hscopes : InScopes ref outer n ps env)
    (henv : env.scopes = scope :: scopes) (hblock : ps.block = some b) (hfew : ps.errnum ≤ MAX_ERRORS)
    (hown : own_all stmts (scope.map Prod.fst) = some names)
    (hexec : exec_all pool.lit stmts env = some env') :
    Post (fun ps' => ps'.errors = ps.errors → Simulated pool ref outer n ps ps' env env')
      (parse_statements stmts ps) := by
  cases stmts with
  | nil =>
    rw [exec_all] at hexec
    cases hexec
    rw [parse_statements]
    exact Post.ok fun _ => ⟨[], .refl hblock, hscopes, .refl env⟩
  | cons stmt stmts =>
    rw [own_all] at hown
    rw [exec_all] at hexec
    obtain ⟨names₁, hfirst, hown⟩ := Option.bind_eq_some_iff.mp hown
    obtain ⟨env₁, hexec₁, hexec⟩ := Option.bind_eq_some_iff.mp hexec
    rw [parse_statements]
    refine Post.bind fun ps₁ hstmt => fun ps' hrest herrors => ?_
    have hwithin : Within ref outer n ps := ⟨_, hscopes.inside⟩
    have hsteps := parse_statement_steps stmt hwithin ps₁ hstmt
    have hwithin₁ := hwithin.steps hsteps
    obtain ⟨herrors₁, herrors'⟩ := errors_between (hwithin.errors hsteps)
      (hwithin₁.errors (parse_statements_steps stmts hwithin₁ ps' hrest)) herrors
    have hfew₁ : ps₁.errnum ≤ MAX_ERRORS := by rwa [ParserState.errnum, herrors₁]
    obtain ⟨code, hextends, hscopes₁, hcomputes⟩ :=
      parse_statement_simulated stmt hscopes henv hblock hfew hfirst hexec₁ ps₁ hstmt herrors₁
    obtain ⟨scope₁, henv₁, rfl, -⟩ := Stmt.exec_names stmt hfirst hexec₁ henv rfl
    obtain ⟨b₁, -, hblock₁⟩ := hextends.block
    obtain ⟨code', hextends', hscopes', hcomputes'⟩ :=
      parse_statements_simulated stmts hscopes₁ henv₁ hblock₁ hfew₁ hown hexec ps' hrest herrors'
    obtain ⟨_, _, _, hlength⟩ := exec_all_names stmts hown hexec henv₁ rfl
    exact ⟨code ++ code', hextends.trans hextends', hscopes', hcomputes.trans hcomputes' hlength⟩

end

end statements

end koala.parser
