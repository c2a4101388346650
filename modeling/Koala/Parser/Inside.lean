import Koala.Parser.Scopes
import Koala.Parser.Steps
import Koala.Parser.Table

open koala.typedesc

namespace koala.parser

set_option linter.style.nameCheck false

section inside

/-- A block that is marked as returning has a `RETURN`. -/
def CodeBlock.Returns (b : CodeBlock) : Prop := b.ret = true → ∃ i ∈ b.insts, i.op = .RETURN

def ParserUnit.Returns (u : ParserUnit) : Prop := ∀ b, u.block = some b → b.Returns

/-- The unit of a block. -/
structure ParserUnit.IsBlock (u : ParserUnit) : Prop where
  scope : u.scope = .SCOPE_BLOCK
  own : u.Own
  returns : u.Returns

/-- The unit of the function that `ref` is the symbol of; its next variable has
the index `idx`. -/
structure ParserUnit.IsFunction (ref : SymRef) (idx : Nat) (u : ParserUnit) : Prop where
  scope : u.scope = .SCOPE_FUNCTION
  sym : u.sym = some ref
  own : ∃ stbl, u.stbl = some (.own stbl) ∧ stbl.varindex = idx
  returns : u.Returns

/-- The current unit is that of a function, or that of the `n`-th block in it. -/
inductive Inside (ref : SymRef) (outer : List ParserUnit) (idx : Nat) : Nat → ParserState → Prop
  | function {ps : ParserState} {f : ParserUnit} (hu : ps.u = some f) (hstack : ps.ustack = outer)
      (hf : f.IsFunction ref idx) : Inside ref outer idx 0 ps
  | block {ps : ParserState} {u f : ParserUnit} {blocks : List ParserUnit} (hu : ps.u = some u)
      (hstack : ps.ustack = blocks ++ f :: outer) (hblock : u.IsBlock)
      (hblocks : ∀ b ∈ blocks, b.IsBlock) (hf : f.IsFunction ref idx) :
      Inside ref outer idx (blocks.length + 1) ps

end inside

/-- Variables were listed in a function, and errors reported. -/
structure Moved (ref : SymRef) (vars : List LocVar) (ps ps' : ParserState) : Prop where
  view : ∀ ref', viewOf ps'.pkg ref' =
    (viewOf ps.pkg ref').map (if ref' = ref then View.addVars vars else id)
  rest : ps'.rest = ps.rest
  depth : ps'.depth = ps.depth
  errors : ps.errors <+: ps'.errors

section moved

variable {ref : SymRef} {vars vars' : List LocVar} {ps ps₁ ps' : ParserState}

theorem Moved.of_pkg (hpkg : ps'.pkg = ps.pkg) (hrest : ps'.rest = ps.rest)
    (hdepth : ps'.depth = ps.depth) (herrors : ps.errors <+: ps'.errors) : Moved ref [] ps ps' where
  view ref' := by rw [hpkg, View.addVars_nil, ite_self, Option.map_id, id]
  rest := hrest
  depth := hdepth
  errors := herrors

theorem Moved.refl (ps : ParserState) : Moved ref [] ps ps :=
  .of_pkg rfl rfl rfl (List.prefix_refl _)

theorem Moved.trans (h : Moved ref vars ps ps₁) (h' : Moved ref vars' ps₁ ps') :
    Moved ref (vars ++ vars') ps ps' where
  view ref' := by
    rw [h'.view, h.view, Option.map_map]
    split
    · rw [View.addVars_comp]
    · rfl
  rest := h'.rest.trans h.rest
  depth := h'.depth.trans h.depth
  errors := h.errors.trans h'.errors

end moved

section units

variable {u : ParserUnit}

theorem CodeBlock.Returns.append {b : CodeBlock} (h : b.Returns) (insts : List Inst) :
    (b.append insts).Returns := by
  intro hret
  obtain ⟨i, hi, hop⟩ := h hret
  exact ⟨i, List.mem_append_left insts hi, hop⟩

theorem CodeBlock.return_returns (b : CodeBlock) : b.return.Returns :=
  fun _ => ⟨⟨.RETURN, none, 0⟩, List.mem_append_right _ (List.mem_singleton.mpr rfl), rfl⟩

theorem ParserUnit.Returns.append (h : u.Returns) (insts : List Inst) :
    (u.append insts).Returns := by
  intro b hb
  obtain ⟨b₀, hb₀, rfl⟩ := Option.map_eq_some_iff.mp hb
  exact (h b₀ hb₀).append insts

theorem ParserUnit.IsBlock.append (h : u.IsBlock) (insts : List Inst) :
    (u.append insts).IsBlock := ⟨h.scope, h.own, h.returns.append insts⟩

theorem ParserUnit.IsFunction.append {ref : SymRef} {idx : Nat} (h : u.IsFunction ref idx)
    (insts : List Inst) : (u.append insts).IsFunction ref idx :=
  ⟨h.scope, h.sym, h.own, h.returns.append insts⟩

end units

section exits

variable [Build] {ps ps' : ParserState} {u uu : ParserUnit} {ustack : List ParserUnit}

/-- A unit is left as its kind says, and the one above is the current one again. -/
theorem exit_scope_ok (hu : ps.u = some u) (h : Parser_Exit_Scope ps = .ok ps') :
    ∃ ps₁, (match u.scope with
      | .SCOPE_MODULE => merge_module ps u
      | .SCOPE_CLASS => merge_class ps u
      | .SCOPE_FUNCTION => merge_function ps u
      | .SCOPE_BLOCK => merge_block ps u
      | .SCOPE_CLOSURE => assert False >>= fun _ => .ok ps) = .ok ps₁ ∧ ps' = restore_unit ps₁ := by
  obtain ⟨ps₁, hmerge, h⟩ := bind_eq_ok_iff.mp h
  obtain ⟨u₁, _, h⟩ := bind_eq_ok_iff.mp h
  obtain ⟨_, _, h⟩ := bind_eq_ok_iff.mp h
  unfold merge_parser_unit at hmerge
  rw [hu] at hmerge
  cases h
  exact ⟨ps₁, hmerge, rfl⟩

/-- Leaving a block gives its code to the scope above. -/
theorem exit_block_ok (hu : ps.u = some u) (hscope : u.scope = .SCOPE_BLOCK)
    (hstack : ps.ustack = uu :: ustack) (h : Parser_Exit_Scope ps = .ok ps') :
    ∃ b ub, u.block = some b ∧ uu.block = some ub ∧ ps' = { ps with
      u := some { uu with block := some (CodeBlock_Merge b ub) }
      ustack := ustack
      depth := ps.depth - 1 } := by
  obtain ⟨ps₁, hmerge, rfl⟩ := exit_scope_ok hu h
  rw [hscope] at hmerge
  dsimp only at hmerge
  unfold merge_block at hmerge
  rw [hstack] at hmerge
  obtain ⟨b, hb, hmerge⟩ := bind_eq_ok_iff.mp hmerge
  obtain ⟨ub, hub, hmerge⟩ := bind_eq_ok_iff.mp hmerge
  cases hmerge
  exact ⟨b, ub, deref_eq_ok_iff.mp hb, deref_eq_ok_iff.mp hub, rfl⟩

/-- Leaving a function gives its code to its symbol. -/
theorem exit_function_post {ref : SymRef} (hu : ps.u = some u)
    (hscope : u.scope = .SCOPE_FUNCTION) (hsym : u.sym = some ref)
    (h : Parser_Exit_Scope ps = .ok ps') :
    ∃ b sym, u.block = some b ∧ ps.getSym ref = .ok sym ∧ sym.kind = .SYM_FUNC ∧
      ps' = restore_unit (ps.updateSym ref (Symbol.setCode (add_return b))) := by
  obtain ⟨ps₁, hmerge, rfl⟩ := exit_scope_ok hu h
  rw [hscope] at hmerge
  dsimp only at hmerge
  unfold merge_function at hmerge
  obtain ⟨_, _, hmerge⟩ := bind_eq_ok_iff.mp hmerge
  obtain ⟨ref', href, hmerge⟩ := bind_eq_ok_iff.mp hmerge
  obtain ⟨sym, hget, hmerge⟩ := bind_eq_ok_iff.mp hmerge
  obtain ⟨_, _, hmerge⟩ := bind_eq_ok_iff.mp hmerge
  obtain ⟨b, hb, hmerge⟩ := bind_eq_ok_iff.mp hmerge
  rw [hsym] at href
  cases href
  split at hmerge
  · next hkind =>
    cases hmerge
    exact ⟨b, sym, deref_eq_ok_iff.mp hb, hget, hkind, rfl⟩
  · cases hmerge

/-- A class that can be left leaves nothing behind. -/
theorem exit_class_ok (hu : ps.u = some u) (hscope : u.scope = .SCOPE_CLASS)
    (h : Parser_Exit_Scope ps = .ok ps') : ps' = restore_unit ps := by
  obtain ⟨ps₁, hmerge, rfl⟩ := exit_scope_ok hu h
  rw [hscope] at hmerge
  dsimp only at hmerge
  unfold merge_class at hmerge
  obtain ⟨_, _, hmerge⟩ := bind_eq_ok_iff.mp hmerge
  obtain ⟨ref, _, hmerge⟩ := bind_eq_ok_iff.mp hmerge
  obtain ⟨sym, _, hmerge⟩ := bind_eq_ok_iff.mp hmerge
  obtain ⟨_, _, hmerge⟩ := bind_eq_ok_iff.mp hmerge
  obtain ⟨_, _, hmerge⟩ := bind_eq_ok_iff.mp hmerge
  obtain ⟨_, _, hmerge⟩ := bind_eq_ok_iff.mp hmerge
  cases hmerge
  rfl

end exits

section steps

variable {ref : SymRef} {outer : List ParserUnit} {idx n : Nat} {ps ps' : ParserState}
  {u u' : ParserUnit}

/-- Only the current unit is written. -/
theorem Inside.write (h : Inside ref outer idx n ps) (hu : ps.u = some u) (hu' : ps'.u = some u')
    (hstack : ps'.ustack = ps.ustack) (hblock : u.IsBlock → u'.IsBlock)
    (hfunction : u.IsFunction ref idx → u'.IsFunction ref idx) : Inside ref outer idx n ps' := by
  cases h with
  | function hf hempty hfun =>
    cases hu.symm.trans hf
    exact .function hu' (hstack.trans hempty) (hfunction hfun)
  | block hb hunits hblk hblocks hfun =>
    cases hu.symm.trans hb
    exact .block hu' (hstack.trans hunits) (hblock hblk) hblocks hfun

theorem Inside.append (h : Inside ref outer idx n ps) (insts : List Inst)
    (es : List SyntaxError) : Inside ref outer idx n (ps.append insts es) := by
  have hu : ∃ u, ps.u = some u := by
    cases h with
    | function hu => exact ⟨_, hu⟩
    | block hu => exact ⟨_, hu⟩
  obtain ⟨u, hu⟩ := hu
  have hu' : (ps.append insts es).u = some (u.append insts) :=
    congrArg (Option.map fun u : ParserUnit => u.append insts) hu
  exact h.write hu hu' rfl (fun hb => hb.append insts) fun hf => hf.append insts

theorem Moved.append (ps : ParserState) (insts : List Inst) (es : List SyntaxError) :
    Moved ref [] ps (ps.append insts es) := .of_pkg rfl rfl rfl (List.prefix_append ps.errors es)

theorem Inside.enter (h : Inside ref outer idx n ps) (henter : enter_block ps = .ok ps') :
    Inside ref outer idx (n + 1) ps' ∧ ps'.pkg = ps.pkg ∧ ps'.rest = ps.rest ∧
      ps'.depth = ps.depth + 1 ∧ ps'.errors = ps.errors := by
  have hnew : (block_unit STable_New CodeBlock_New).IsBlock :=
    ⟨rfl, ⟨STable_New, rfl⟩, fun b hb hret => by cases hb; cases hret⟩
  unfold enter_block Parser_Enter_Scope at henter
  cases h with
  | @function _ f hu hstack hf =>
    rw [hu] at henter
    cases henter
    have hunits : f :: ps.ustack = [] ++ f :: outer := congrArg (f :: ·) hstack
    exact ⟨.block rfl hunits hnew (List.forall_mem_nil _) hf, rfl, rfl, rfl, rfl⟩
  | @block _ u f blocks hu hstack hblock hblocks hf =>
    rw [hu] at henter
    cases henter
    have hunits : u :: ps.ustack = (u :: blocks) ++ f :: outer := congrArg (u :: ·) hstack
    exact ⟨.block rfl hunits hnew (List.forall_mem_cons.mpr ⟨hblock, hblocks⟩) hf,
      rfl, rfl, rfl, rfl⟩

theorem Inside.exit [Build] (h : Inside ref outer idx (n + 1) ps)
    (hexit : Parser_Exit_Scope ps = .ok ps') :
    Inside ref outer idx n ps' ∧ ps'.pkg = ps.pkg ∧ ps'.rest = ps.rest ∧
      ps'.depth = ps.depth - 1 ∧ ps'.errors = ps.errors := by
  cases h with
  | @block _ u f blocks hu hstack hblock hblocks hf =>
    cases blocks with
    | nil =>
      obtain ⟨b, ub, _, hub, rfl⟩ := exit_block_ok hu hblock.scope hstack hexit
      refine ⟨.function rfl rfl ⟨hf.scope, hf.sym, hf.own, ?_⟩, rfl, rfl, rfl, rfl⟩
      intro b' hb'
      cases hb'
      exact (hf.returns ub hub).append b.insts
    | cons uu blocks =>
      rw [List.cons_append] at hstack
      have huu := hblocks uu List.mem_cons_self
      obtain ⟨b, ub, _, hub, rfl⟩ := exit_block_ok hu hblock.scope hstack hexit
      refine ⟨.block rfl rfl ⟨huu.scope, huu.own, ?_⟩
        (fun b hb => hblocks b (List.mem_cons_of_mem uu hb)) hf, rfl, rfl, rfl, rfl⟩
      intro b' hb'
      cases hb'
      exact (huu.returns ub hub).append b.insts

/-- The first unit of the stack that numbers variables is that of the function. -/
theorem first_numbers {pre post blocks : List ParserUnit} {f f' : ParserUnit}
    (hstack : pre ++ f :: post = blocks ++ f' :: outer) (hpre : ∀ uu ∈ pre, ¬ uu.Numbers)
    (hf : f.Numbers) (hblocks : ∀ b ∈ blocks, b.IsBlock) (hf' : f'.Numbers) :
    pre = blocks ∧ f = f' ∧ post = outer := by
  have hnot : ∀ b ∈ blocks, ¬ b.Numbers := by
    intro b hb hnumbers
    have hscope := (hblocks b hb).scope
    unfold ParserUnit.Numbers at hnumbers
    rw [hscope] at hnumbers
    exact hnumbers.elim (nomatch ·) (nomatch ·)
  clear hblocks
  induction pre generalizing blocks with
  | nil =>
    cases blocks with
    | nil =>
      rw [List.nil_append, List.nil_append] at hstack
      cases hstack
      exact ⟨rfl, rfl, rfl⟩
    | cons b blocks =>
      cases hstack
      exact absurd hf (hnot f List.mem_cons_self)
  | cons uu pre ih =>
    cases blocks with
    | nil =>
      cases hstack
      exact absurd hf' (hpre f' List.mem_cons_self)
    | cons b blocks =>
      obtain ⟨rfl, hrest⟩ := List.cons.inj hstack
      obtain ⟨rfl, rfl, rfl⟩ := ih hrest (fun uu hu => hpre uu (List.mem_cons_of_mem _ hu))
        fun b hb => hnot b (List.mem_cons_of_mem _ hb)
      exact ⟨rfl, rfl, rfl⟩

theorem Moved.declared {var : LocVar} {ps₁ : ParserState} (hpkg : ps₁.pkg = ps.pkg)
    (hrest : ps₁.rest = ps.rest) (hdepth : ps₁.depth = ps.depth) (herrors : ps₁.errors = ps.errors) :
    Moved ref [var] ps (ps₁.updateSym ref (Symbol.addLocvar var)) where
  view ref' := by rw [viewOf_updateSym (addLocvar_writes var), hpkg]
  rest := (updateSym_rest ..).trans hrest
  depth := (updateSym_depth ..).trans hdepth
  errors := errors_of_eq ((updateSym_errors ..).trans herrors)

theorem Inside.declare {var : LocVar} {ps₁ : ParserState} (h : Inside ref outer idx n ps₁) :
    Inside ref outer idx n (ps₁.updateSym ref (Symbol.addLocvar var)) := by
  have hu := updateSym_u ps₁ (Symbol.addLocvar var) ref
  have hstack := updateSym_ustack ps₁ (Symbol.addLocvar var) ref
  cases h with
  | function hf hempty hfun => exact .function (hu.trans hf) (hstack.trans hempty) hfun
  | block hb hunits hblock hblocks hfun =>
    exact .block (hu.trans hb) (hstack.trans hunits) hblock hblocks hfun

/-- The statements of a function list its variables under consecutive indices,
and change no other function and no unit above it. -/
theorem Steps.inside [Build] (h : Steps ps ps') (hin : Inside ref outer idx n ps) :
    ∃ vars, Inside ref outer (idx + vars.length) n ps' ∧ Moved ref vars ps ps' ∧
      vars.map LocVar.index = List.range' idx vars.length := by
  induction h generalizing n idx with
  | refl ps => exact ⟨[], hin, .refl ps, rfl⟩
  | trans first rest ih ih' =>
    obtain ⟨vars, hin₁, hmoved, hindex⟩ := ih hin
    obtain ⟨vars', hin', hmoved', hindex'⟩ := ih' hin₁
    refine ⟨vars ++ vars', ?_, hmoved.trans hmoved', ?_⟩
    · rw [List.length_append, ← Nat.add_assoc]
      exact hin'
    · rw [List.map_append, hindex, hindex', List.length_append, ← List.range'_append_1]
  | coded hcode =>
    obtain ⟨insts, es, _, rfl⟩ := hcode
    exact ⟨[], hin.append insts es, .append _ insts es, rfl⟩
  | @returned ps u b hu hblock =>
    have hreturns : ParserUnit.Returns { u with block := some b.return } := by
      intro b' hb'
      cases hb'
      exact b.return_returns
    exact ⟨[], hin.write hu rfl rfl (fun hb => ⟨hb.scope, hb.own, hreturns⟩)
      fun hf => ⟨hf.scope, hf.sym, hf.own, hreturns⟩,
      .of_pkg rfl rfl rfl (List.prefix_refl _), rfl⟩
  | @valued ps u stbl name value hu hstbl =>
    refine ⟨[], hin.write hu rfl rfl (fun hb => ⟨hb.scope, ⟨_, rfl⟩, hb.returns⟩)
      fun hf => ⟨hf.scope, hf.sym, ⟨_, rfl, ?_⟩, hf.returns⟩,
      .of_pkg rfl rfl rfl (List.prefix_refl _), rfl⟩
    obtain ⟨stbl', hstbl', hidx⟩ := hf.own
    cases hstbl.symm.trans hstbl'
    exact hidx
  | @declared ps u stbl stbl' ref' func id desc hu hscope hstbl hadd hsym hget hkind =>
    cases hin with
    | block hb _ hblock =>
      cases hu.symm.trans hb
      cases hscope.symm.trans hblock.scope
    | function hf hstack hfun =>
      cases hu.symm.trans hf
      cases hsym.symm.trans hfun.sym
      obtain ⟨stbl₀, hstbl₀, rfl⟩ := hfun.own
      cases hstbl.symm.trans hstbl₀
      obtain ⟨_, rfl⟩ := STable.addVar_eq_some_iff.mp hadd
      refine ⟨[⟨id.name, desc, stbl.varindex⟩], .declare (.function rfl hstack ?_),
        .declared rfl rfl rfl rfl, rfl⟩
      exact ⟨hfun.scope, hfun.sym, ⟨_, rfl, rfl⟩, hfun.returns⟩
  | @declared_block ps u f stbl stbl' fstbl pre post ref' func id desc hu hscope hstbl hstack hpre
      hf hfstbl hadd hsym hget hkind =>
    cases hin with
    | function hf _ hfun =>
      cases hu.symm.trans hf
      cases hscope.symm.trans hfun.scope
    | block hb hunits hblock hblocks hfun =>
      cases hu.symm.trans hb
      obtain ⟨rfl, rfl, rfl⟩ := first_numbers (hstack.symm.trans hunits) hpre hf hblocks
        (.inl hfun.scope)
      cases hsym.symm.trans hfun.sym
      obtain ⟨stbl₀, hstbl₀, rfl⟩ := hfun.own
      cases hfstbl.symm.trans hstbl₀
      refine ⟨[⟨id.name, desc, fstbl.varindex⟩], .declare (.block rfl rfl ?_ hblocks ?_),
        .declared rfl rfl rfl rfl, rfl⟩
      · exact ⟨hblock.scope, ⟨_, rfl⟩, hblock.returns⟩
      · exact ⟨hfun.scope, hfun.sym, ⟨_, rfl, rfl⟩, hfun.returns⟩
  | block henter hsteps hexit ih =>
    obtain ⟨hin₁, hpkg, hrest, hdepth, herrors⟩ := hin.enter henter
    obtain ⟨vars, hin₂, hmoved, hindex⟩ := ih hin₁
    obtain ⟨hin', hpkg', hrest', hdepth', herrors'⟩ := hin₂.exit hexit
    refine ⟨vars, hin', ⟨fun ref' => ?_, ?_, ?_, ?_⟩, hindex⟩
    · rw [hpkg', hmoved.view, hpkg]
    · rw [hrest', hmoved.rest, hrest]
    · rw [hdepth', hmoved.depth, hdepth, Nat.add_sub_cancel]
    · rw [herrors', ← herrors]
      exact hmoved.errors

end steps

end koala.parser
