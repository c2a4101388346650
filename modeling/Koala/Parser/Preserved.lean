import Koala.Parser.Body
import Koala.Parser.Meaning

open koala.typedesc koala.eval koala.scoped

namespace koala.parser

set_option linter.style.nameCheck false

variable {α : Type}

/-- The slot of a variable. -/
def Symbol.slot (sym : Symbol) : Option Nat :=
  match sym.data with
  | .SYM_VAR index _ => some index
  | _ => none

/-- A table has the variables of a scope, each under the slot of its place. -/
def STable.Shows (stbl : STable Symbol) (scope : Scope CString) : Prop :=
  ∀ name, (STable_Get stbl name).map Symbol.slot =
    (scope.find name).map fun place => some (place + 1)

def ParserUnit.Shows (u : ParserUnit) (scope : Scope CString) : Prop :=
  ∃ stbl, u.stbl = some (.own stbl) ∧ stbl.Shows scope

/-- The open scopes of a function show those of the program, and the next
variable gets the next place. -/
structure InScopes (ref : SymRef) (outer : List ParserUnit) (n : Nat) (ps : ParserState)
    (env : Env CString α) : Prop where
  inside : Inside ref outer (env.store.length + 1) n ps
  scopes : ∃ u scope scopes, ps.u = some u ∧ env.scopes = scope :: scopes ∧ u.Shows scope ∧
    List.Forall₂ ParserUnit.Shows (ps.ustack.take n) scopes
  placed : env.Placed

/-- The code of the current scope. -/
def ParserState.block (ps : ParserState) : Option CodeBlock := ps.u.bind ParserUnit.block

/-- The current scope gets code, and those above it get none. -/
structure Extends (code : List Inst) (ps ps' : ParserState) : Prop where
  block : ∃ b, ps.block = some b ∧ ps'.block = some (b.append code)
  above : ps'.ustack.map ParserUnit.block = ps.ustack.map ParserUnit.block

section tables

variable {stbl stbl' : STable Symbol} {name : CString} {desc : Option TypeDesc}
  {scope : Scope CString}

theorem STable.shows_new : STable_New.Shows [] := fun _ => rfl

/-- A table with one more variable, behind those it has. -/
theorem STable.Shows.declare (h : stbl.Shows scope) {sym : Symbol} {place : Nat}
    (hslot : sym.slot = some (place + 1))
    (hget : ∀ other, STable_Get stbl' other =
      (STable_Get stbl other).or (if name = other then some sym else none)) :
    stbl'.Shows (scope ++ [(name, place)]) := by
  intro other
  have hold := h other
  rw [hget, Scope.find_append]
  cases hfound : STable_Get stbl other with
  | some found =>
    rw [hfound] at hold
    cases hfind : scope.find other with
    | some p =>
      rw [hfind] at hold
      exact hold
    | none =>
      rw [hfind] at hold
      cases hold
  | none =>
    rw [hfound] at hold
    have hnone : scope.find other = none := Option.map_eq_none_iff.mp hold.symm
    rw [hnone, Option.none_or, Option.none_or]
    split
    · rw [Option.map_some, Option.map_some, hslot]
    · rfl

theorem STable_Add_Var_get_other (hadd : STable_Add_Var stbl name desc = some stbl')
    (other : CString) :
    STable_Get stbl' other = (STable_Get stbl other).or
      (if name = other then some (Symbol_New name desc (.SYM_VAR stbl.varindex none)) else none) := by
  obtain ⟨-, rfl⟩ := STable.addVar_eq_some_iff.mp hadd
  exact STable_Get_append other

/-- A variable of a block, which gets the index of the function. -/
theorem STable_Add_Var_setIndex (hadd : STable_Add_Var stbl name desc = some stbl') (index : Nat)
    (other : CString) :
    STable_Get (stbl'.update name (Symbol.setIndex index)) other = (STable_Get stbl other).or
      (if name = other then some (Symbol_New name desc (.SYM_VAR index none)) else none) := by
  rw [STable_Get_update setIndex_name, STable_Add_Var_get_other hadd]
  obtain ⟨hnone, -⟩ := STable.addVar_eq_some_iff.mp hadd
  by_cases hname : name = other
  · subst hname
    rw [hnone, if_pos rfl, if_pos rfl, Option.none_or, Option.none_or, Option.map_some, if_pos rfl]
    rfl
  · rw [if_neg hname, if_neg hname, Option.or_none]
    cases STable_Get stbl other with
    | none => rfl
    | some sym => exact congrArg some (if_neg (Ne.symm hname))

theorem setValue_name (value : Option ConstValue) (sym : Symbol) :
    (sym.setValue value).name = sym.name := (setValue_writes value).name sym

theorem setValue_slot (value : Option ConstValue) (sym : Symbol) :
    (sym.setValue value).slot = sym.slot := by
  obtain ⟨_, _, _, _, data⟩ := sym
  cases data <;> rfl

/-- The value of a constant does not matter. -/
theorem STable.Shows.setValue (h : stbl.Shows scope) (value : Option ConstValue) :
    (stbl.update name (Symbol.setValue value)).Shows scope := by
  intro other
  rw [← h other, STable_Get_update (setValue_name value), Option.map_map]
  congr 1
  funext sym
  rw [Function.comp_apply]
  split
  · exact setValue_slot value sym
  · rfl

end tables

section code

theorem ParserState.append_block (ps : ParserState) (insts : List Inst) (es : List SyntaxError) :
    (ps.append insts es).block = ps.block.map fun b => b.append insts := by
  cases ps with
  | mk _ _ _ _ _ _ _ u => cases u <;> rfl

variable {code code' : List Inst} {ps ps₁ ps' : ParserState}

theorem Extends.refl {b : CodeBlock} (hblock : ps.block = some b) : Extends [] ps ps where
  block := ⟨b, hblock, by rw [hblock, CodeBlock.append_nil]⟩
  above := rfl

theorem Extends.trans (h : Extends code ps ps₁) (h' : Extends code' ps₁ ps') :
    Extends (code ++ code') ps ps' where
  block := by
    obtain ⟨b, hb, hb₁⟩ := h.block
    obtain ⟨b₁, hb₁', hb'⟩ := h'.block
    cases hb₁.symm.trans hb₁'
    exact ⟨b, hb, by rw [hb', CodeBlock.append_append]⟩
  above := h'.above.trans h.above

theorem Extends.append {b : CodeBlock} (hblock : ps.block = some b) (insts : List Inst)
    (es : List SyntaxError) : Extends insts ps (ps.append insts es) where
  block := ⟨b, hblock, by rw [ParserState.append_block, hblock, Option.map_some]⟩
  above := rfl

end code

section names

variable {u : ParserUnit} {scope : Scope CString} {name : CString} {ps ps' : ParserState}

/-- A name of the scope is found in its table. -/
theorem ParserUnit.Shows.get (h : u.Shows scope) {place : Nat} (hfind : scope.find name = some place) :
    ∃ sym, ps.get u name = .ok (some sym) ∧ sym.slot = some (place + 1) := by
  obtain ⟨stbl, hstbl, hshows⟩ := h
  have hslot := hshows name
  rw [hfind] at hslot
  obtain ⟨sym, hget, hslot⟩ := Option.map_eq_some_iff.mp hslot
  refine ⟨sym, ?_, hslot⟩
  unfold ParserState.get
  rw [hstbl, ← hget]
  rfl

theorem Symbol.slot_eq_some_iff {sym : Symbol} {index : Nat} :
    sym.slot = some index ↔ ∃ value, sym.data = .SYM_VAR index value := by
  obtain ⟨_, _, _, _, data⟩ := sym
  cases data with
  | SYM_VAR index' value =>
    constructor
    · intro h
      cases h
      exact ⟨value, rfl⟩
    · rintro ⟨value', h⟩
      cases h
      rfl
  | _ =>
    constructor
    · intro h
      cases h
    · rintro ⟨value, h⟩
      cases h

/-- The instruction for a variable. -/
def slot_inst (ctx : ExprCtx) (index : Nat) : Inst :=
  ⟨match ctx with
    | .EXPR_LOAD => .LOAD
    | .EXPR_STORE => .STORE, some (.BASE_INT (BitVec.ofNat 64 index)), 0⟩

variable [Build]

/-- A variable of the current scope is loaded or stored. -/
theorem Code_Ident_Expr_slot (hu : ps.u = some u)
    (hscope : u.scope = .SCOPE_FUNCTION ∨ u.scope = .SCOPE_BLOCK) {sym : Symbol} {index : Nat}
    (hslot : sym.slot = some index) {desc : Option TypeDesc} {kind : ScopeKind} {ctx : ExprCtx} :
    Post (fun ps' => ps' = ps.append [slot_inst ctx index] [])
      (Code_Ident_Expr ⟨desc, some sym, none, some (.CURRENT_SCOPE, kind)⟩ ctx none ps) := by
  obtain ⟨value, hdata⟩ := Symbol.slot_eq_some_iff.mp hslot
  have hcode : Post (fun ps' => ps' = ps.append [slot_inst ctx index] [])
      (code_current_function_block_closure sym desc ctx none ps) := by
    refine Post.bind fun _ _ => Post.bind fun desc _ => ?_
    have hcalled : called desc none = none := by cases desc <;> rfl
    rw [hcalled]
    refine Post.bind fun i hi => ?_
    rw [Symbol.index, hdata] at hi
    cases hi
    cases ctx with
    | EXPR_LOAD => exact fun _ h => emit_append (fun _ => rfl) h
    | EXPR_STORE => exact fun _ h => emit_append (fun _ => rfl) h
  refine Post.bind fun _ _ => Post.bind fun u' hu' => ?_
  rw [hu] at hu'
  cases hu'
  refine Post.bind fun sym' hsym => ?_
  cases hsym
  rcases hscope with hscope | hscope
  · rw [hscope]
    exact hcode
  · rw [hscope]
    exact hcode

variable [Arith]

/-- Visiting a variable of the current scope gives one instruction. -/
theorem visit_own (hu : ps.u = some u)
    (hscope : u.scope = .SCOPE_FUNCTION ∨ u.scope = .SCOPE_BLOCK) (hshows : u.Shows scope)
    {place : Nat} (hfind : scope.find name = some place) (hnum : ps.errnum ≤ MAX_ERRORS)
    {pos : Position} {ctx : ExprCtx} :
    Post (fun r => r.2 = ps.append [slot_inst ctx (place + 1)] [])
      (parser_visit_expr (.ID name pos) ctx ps) := by
  obtain ⟨sym, hget, hslot⟩ : ∃ sym, ps.get u name = .ok (some sym) ∧
      sym.slot = some (place + 1) := hshows.get hfind
  refine Post.bind fun r hr => Post.bind fun ps₁ hcode => Post.ok ?_
  rw [Parse_Expression.eq_def] at hr
  dsimp only at hr
  rw [if_neg (by omega), Parse_Ident_Expr, hu, deref, ok_bind, hget] at hr
  cases hr
  dsimp only at hcode
  rw [Code_Expression, if_neg (by omega)] at hcode
  exact Code_Ident_Expr_slot hu hscope hslot ps₁ hcode

/-- Visiting a literal gives one instruction. -/
theorem visit_CONST (hnum : ps.errnum ≤ MAX_ERRORS) {value : ConstValue} {pos : Position} :
    Post (fun r => r.2 = ps.append [⟨.LOAD_CONST, some value, 0⟩] [])
      (parser_visit_expr (.CONST value pos) .EXPR_LOAD ps) := by
  refine Post.bind fun r hr => Post.bind fun ps₁ hcode => Post.ok ?_
  rw [Parse_Expression.eq_def] at hr
  dsimp only at hr
  rw [if_neg (by omega)] at hr
  cases hr
  dsimp only at hcode
  rw [Code_Expression, if_neg (by omega)] at hcode
  obtain ⟨_, -, hemit⟩ := bind_eq_ok_iff.mp hcode
  exact emit_append (fun _ => rfl) hemit

end names

section declarations

variable {ref : SymRef} {outer : List ParserUnit} {n : Nat} {ps : ParserState} {env : Env CString α}
  {u : ParserUnit} {id : Ident} {desc : Option TypeDesc}

/-- Under a function a variable of a block is numbered, or an error is reported. -/
theorem parse_block_variable_none (depth i : Nat) {ustack : List ParserUnit}
    (hnumbers : ∃ f ∈ ustack, f.Numbers) :
    Post (fun r => r.1 = none → r.2.errors ≠ ps.errors)
      (parse_block_variable ps id depth i ustack) := by
  induction ustack generalizing depth i with
  | nil =>
    obtain ⟨f, hf, -⟩ := hnumbers
    cases hf
  | cons uu ustack ih =>
    refine Post.bind fun found _ => ?_
    split
    · refine Post.ok fun _ herrors => ?_
      have hlength := congrArg List.length herrors
      simp [Syntax_Error] at hlength
    refine Post.ite (fun _ => Post.ok fun hnone => by cases hnone) fun hscope => ?_
    refine ih (depth - 1) (i + 1) ?_
    obtain ⟨f, hf, hnum⟩ := hnumbers
    rcases List.mem_cons.mp hf with rfl | hf
    · exact absurd hnum hscope
    · exact ⟨f, hf, hnum⟩

theorem add_block_variable_none {stbl : STable Symbol} (hstbl : u.stbl = some (.own stbl))
    (hnumbers : ∃ f ∈ ps.ustack, f.Numbers) :
    Post (fun r => r.1 = none → r.2.errors ≠ ps.errors) (add_block_variable u id desc ps) := by
  refine Post.bind fun r hr => ?_
  have hnone := parse_block_variable_none ps.depth 0 hnumbers r hr
  obtain ⟨i, ps₁⟩ := r
  cases i with
  | none => exact Post.ok fun _ => hnone rfl
  | some i =>
    rcases parse_block_variable_post id ps.depth 0 ps.ustack _ hr with
      ⟨hsome, -⟩ | ⟨_, _, _, -, -, hps, -, -⟩
    · cases hsome
    dsimp only at hps ⊢
    subst hps
    rw [own_addSym hstbl, ok_bind]
    split
    · refine Post.ok fun _ herrors => ?_
      have hlength := congrArg List.length herrors
      simp [Syntax_Error] at hlength
    · refine Post.bind fun _ _ => Post.bind fun _ _ => Post.bind fun _ _ => Post.bind fun _ _ => ?_
      exact Post.bind fun _ _ => Post.ok fun hnone => by cases hnone

theorem forall₂_replace_last {β γ : Type} {R : β → γ → Prop} {l : List β} {a b : β} {k : List γ}
    (h : List.Forall₂ R (l ++ [a]) k) (hlast : ∀ c, R a c → R b c) : List.Forall₂ R (l ++ [b]) k := by
  induction l generalizing k with
  | nil =>
    cases h with
    | cons hac hrest => exact .cons (hlast _ hac) hrest
  | cons x l ih =>
    cases h with
    | cons hx hrest => exact .cons hx (ih hrest)

theorem take_length_succ {β : Type} (l : List β) (a : β) (l' : List β) :
    (l ++ a :: l').take (l.length + 1) = l ++ [a] := by
  rw [List.take_length_add_append, List.take_succ_cons, List.take_zero]

theorem ParserUnit.Shows.withindex {scope : Scope CString} {stbl : STable Symbol}
    (h : u.Shows scope) (hstbl : u.stbl = some (.own stbl)) (varindex : Nat) :
    ParserUnit.Shows { u with stbl := some (.own { stbl with varindex }) } scope := by
  obtain ⟨stbl', hstbl', hshows⟩ := h
  cases hstbl.symm.trans hstbl'
  exact ⟨_, rfl, hshows⟩

/-- A variable that is accepted is the next of the scope, and it has the slot of
the next place. -/
theorem update_add_variable_declares [Build] (hscopes : InScopes ref outer n ps env)
    (value : Option α) :
    Post (fun r => r.2.errors = ps.errors → ∃ sym, r.1 = some sym ∧ sym.name = id.name ∧
        sym.slot = some (env.store.length + 1) ∧
        InScopes ref outer n r.2 (env.declare id.name value) ∧ r.2.block = ps.block ∧
        r.2.ustack.map ParserUnit.block = ps.ustack.map ParserUnit.block)
      (update_add_variable id desc ps) := by
  obtain ⟨hin, ⟨u₀, scope, scopes, hu₀, henv, hshows, habove⟩, hplaced⟩ := hscopes
  cases hin with
  | @function _ u hu hstack hf =>
    cases hu.symm.trans hu₀
    obtain ⟨stbl, hstbl, hindex⟩ := hf.own
    obtain ⟨stbl₀, hstbl₀, hshows⟩ := hshows
    cases hstbl.symm.trans hstbl₀
    intro r hr herrors
    simp only [update_add_variable, hu, deref, ok_bind, hf.scope] at hr
    rcases add_function_variable_post hstbl r hr with rfl | ⟨stbl', ref', func, hadd, hsym, -, -, rfl⟩
    · have hlength := congrArg List.length herrors
      simp [Syntax_Error] at hlength
    · cases hsym.symm.trans hf.sym
      obtain ⟨_, hstbl'⟩ := STable.addVar_eq_some_iff.mp hadd
      have hslot : (Symbol_New id.name desc (.SYM_VAR stbl.varindex none)).slot =
          some (env.store.length + 1) := congrArg some hindex
      refine ⟨_, rfl, rfl, hslot, ⟨?_, ?_, hplaced.declare henv _ _⟩, ?_, ?_⟩
      · refine .declare (.function rfl hstack ⟨hf.scope, hf.sym, ⟨_, rfl, ?_⟩, hf.returns⟩)
        rw [Env.declare_store, List.length_append, List.length_singleton, hstbl', hindex]
      · refine ⟨_, scope ++ [(id.name, env.store.length)], scopes, updateSym_u .., ?_,
          ⟨stbl', rfl, hshows.declare hslot (STable_Add_Var_get_other hadd)⟩, habove⟩
        rw [Env.declare, henv]
        rfl
      · rw [ParserState.block, updateSym_u, ParserState.block, hu]
        rfl
      · rw [updateSym_ustack]
  | @block _ u f blocks hu hstack hblock hblocks hf =>
    cases hu.symm.trans hu₀
    obtain ⟨stbl, hstbl, hshows⟩ := hshows
    have hnumbers : ∃ f ∈ ps.ustack, f.Numbers := by
      refine ⟨f, ?_, .inl hf.scope⟩
      rw [hstack]
      exact List.mem_append_right _ List.mem_cons_self
    intro r hr herrors
    simp only [update_add_variable, hu, deref, ok_bind, hblock.scope] at hr
    rcases add_block_variable_post hstbl r hr with ⟨hnone, -⟩ |
      ⟨stbl', pre, f', post, fstbl, ref', func, hadd, hstack', hpre, hf', hfstbl, hsym, -, -, rfl⟩
    · exact absurd herrors (add_block_variable_none hstbl hnumbers r hr hnone)
    · obtain ⟨rfl, rfl, rfl⟩ := first_numbers (hstack'.symm.trans hstack) hpre hf' hblocks
        (.inl hf.scope)
      cases hsym.symm.trans hf.sym
      obtain ⟨fstbl₀, hfstbl₀, hindex⟩ := hf.own
      cases hfstbl.symm.trans hfstbl₀
      have hslot : (Symbol_New id.name desc (.SYM_VAR fstbl.varindex none)).slot =
          some (env.store.length + 1) := congrArg some hindex
      refine ⟨_, rfl, rfl, hslot, ⟨?_, ?_, hplaced.declare henv _ _⟩, ?_, ?_⟩
      · refine .declare (.block rfl rfl ⟨hblock.scope, ⟨_, rfl⟩, hblock.returns⟩ hblocks
          ⟨hf.scope, hf.sym, ⟨_, rfl, ?_⟩, hf.returns⟩)
        rw [Env.declare_store, List.length_append, List.length_singleton, hindex]
      · refine ⟨_, scope ++ [(id.name, env.store.length)], scopes, updateSym_u .., ?_,
          ⟨_, rfl, hshows.declare hslot (STable_Add_Var_setIndex hadd _)⟩, ?_⟩
        · rw [Env.declare, henv]
          rfl
        · rw [updateSym_ustack]
          rw [hstack, take_length_succ] at habove
          rw [take_length_succ]
          exact forall₂_replace_last habove fun _ h => h.withindex hfstbl _
      · rw [ParserState.block, updateSym_u, ParserState.block, hu]
        rfl
      · rw [updateSym_ustack, hstack']
        simp

theorem ParserUnit.Shows.append {scope : Scope CString} (h : u.Shows scope) (insts : List Inst) :
    (u.append insts).Shows scope := h

theorem InScopes.append (h : InScopes ref outer n ps env) (insts : List Inst)
    (es : List SyntaxError) : InScopes ref outer n (ps.append insts es) env where
  inside := h.inside.append insts es
  scopes := by
    obtain ⟨u, scope, scopes, hu, henv, hshows, habove⟩ := h.scopes
    exact ⟨u.append insts, scope, scopes,
      congrArg (Option.map fun u : ParserUnit => u.append insts) hu, henv, hshows.append insts,
      habove⟩
  placed := h.placed

theorem InScopes.assign (h : InScopes ref outer n ps env) (place : Nat) (v : α) :
    InScopes ref outer n ps { env with store := env.store.set place (some v) } where
  inside := by
    rw [List.length_set]
    exact h.inside
  scopes := h.scopes
  placed scope hscope var hvar := by
    rw [List.length_set]
    exact h.placed scope hscope var hvar

theorem InScopes.unit (h : InScopes ref outer n ps env) :
    ∃ u scope scopes, ps.u = some u ∧ env.scopes = scope :: scopes ∧ u.Shows scope ∧
      (u.scope = .SCOPE_FUNCTION ∨ u.scope = .SCOPE_BLOCK) := by
  obtain ⟨u, scope, scopes, hu, henv, hshows, -⟩ := h.scopes
  refine ⟨u, scope, scopes, hu, henv, hshows, ?_⟩
  cases h.inside with
  | function hf hstack hfun =>
    cases hu.symm.trans hf
    exact .inl hfun.scope
  | block hb hstack hblock =>
    cases hu.symm.trans hb
    exact .inr hblock.scope

end declarations

section blocks

variable {ref : SymRef} {outer : List ParserUnit} {n : Nat} {ps ps' : ParserState}
  {env : Env CString α} {b : CodeBlock}

/-- A block is entered: it has no names and no code yet. -/
theorem InScopes.enter (hscopes : InScopes ref outer n ps env) (henter : enter_block ps = .ok ps') :
    InScopes ref outer (n + 1) ps' env.enter ∧ ps'.block = some CodeBlock_New ∧
      ps'.errors = ps.errors ∧
      ps'.ustack.map ParserUnit.block = ps.block :: ps.ustack.map ParserUnit.block := by
  obtain ⟨hin, ⟨u, scope, scopes, hu, henv, hshows, habove⟩, hplaced⟩ := hscopes
  have hin' := (hin.enter henter).1
  rw [enter_block_eq hu] at henter
  cases henter
  refine ⟨⟨hin', ⟨_, [], env.scopes, rfl, rfl, ⟨STable_New, rfl, STable.shows_new⟩, ?_⟩,
    hplaced.enter⟩, rfl, rfl, ?_⟩
  · rw [henv]
    exact .cons hshows habove
  · rw [ParserState.block, hu]
    rfl

/-- A block is left: its code goes behind that of the scope above. -/
theorem InScopes.exit [Build] (hscopes : InScopes ref outer (n + 1) ps env) {code : List Inst}
    {above : List (Option CodeBlock)} (hblock : ps.block = some (CodeBlock_New.append code))
    (habove : ps.ustack.map ParserUnit.block = some b :: above)
    (hexit : Parser_Exit_Scope ps = .ok ps') :
    InScopes ref outer n ps' env.leave ∧ ps'.block = some (b.append code) ∧
      ps'.errors = ps.errors ∧ ps'.ustack.map ParserUnit.block = above := by
  obtain ⟨hin, ⟨u, scope, scopes, hu, henv, hshows, hunits⟩, hplaced⟩ := hscopes
  obtain ⟨hin', -, -, -, herrors⟩ := hin.exit hexit
  have hscope : u.scope = .SCOPE_BLOCK := by
    cases hin with
    | block hb _ hblk =>
      cases hu.symm.trans hb
      exact hblk.scope
  obtain ⟨uu, ustack, hstack⟩ : ∃ uu ustack, ps.ustack = uu :: ustack := by
    cases hstack : ps.ustack with
    | nil =>
      rw [hstack] at habove
      cases habove
    | cons uu ustack => exact ⟨uu, ustack, rfl⟩
  obtain ⟨b', ub, hb', hub, rfl⟩ := exit_block_ok hu hscope hstack hexit
  rw [ParserState.block, hu, Option.bind_some, hb'] at hblock
  rw [hstack, List.map_cons, hub] at habove
  cases hblock
  cases habove
  rw [hstack, List.take_succ_cons] at hunits
  cases hunits with
  | @cons _ uscope _ uscopes hushows hrest =>
    refine ⟨⟨hin', ⟨_, uscope, uscopes, rfl, ?_, hushows, hrest⟩, hplaced.leave⟩, rfl, rfl, rfl⟩
    rw [Env.leave, henv, List.tail_cons]

end blocks

end koala.parser
