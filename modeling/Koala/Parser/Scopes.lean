import Koala.Parser.Module
import Koala.Parser.Table

open koala.typedesc

namespace koala.parser

set_option linter.style.nameCheck false

section units

/-- The unit of a module. -/
abbrev module_unit (b : CodeBlock) : ParserUnit :=
  ⟨.SCOPE_MODULE, none, some (.shared .pkg), some b, 0⟩

/-- The unit of a class or a trait of the package. -/
abbrev class_unit (name : CString) (b : CodeBlock) : ParserUnit :=
  ⟨.SCOPE_CLASS, some ⟨.pkg, name⟩, some (.shared (.klass name)), some b, 0⟩

abbrev function_unit (ref : SymRef) (stbl : STable Symbol) (b : CodeBlock) : ParserUnit :=
  ⟨.SCOPE_FUNCTION, some ref, some (.own stbl), some b, 0⟩

abbrev block_unit (stbl : STable Symbol) (b : CodeBlock) : ParserUnit :=
  ⟨.SCOPE_BLOCK, none, some (.own stbl), some b, 0⟩

/-- The state in which the unit `u` was entered from `uu`. -/
def ParserState.entered (ps : ParserState) (uu u : ParserUnit) : ParserState :=
  { ps with u := some u, ustack := uu :: ps.ustack, depth := ps.depth + 1 }

variable (ps : ParserState) (b : CodeBlock) (name : CString)

theorem get_module_unit : ps.get (module_unit b) name = .ok (STable_Get ps.pkg name) := rfl

theorem addSym_module_unit (add : STable Symbol → Option (STable Symbol)) {stbl : STable Symbol}
    (hadd : add ps.pkg = some stbl) :
    ps.addSym (module_unit b) add = .ok (some { ps with pkg := stbl }) := by
  have htable : ps.unitTable (.shared .pkg) = some ps.pkg := rfl
  simp only [ParserState.addSym, deref, ok_bind, htable, hadd]
  rfl

theorem updateUnitSym_module_unit (f : Symbol → Symbol) :
    ps.updateUnitSym (module_unit b) name f = .ok { ps with pkg := ps.pkg.update name f } := rfl

theorem enter_module_eq {ps : ParserState} (hu : ps.u = none) : enter_module ps = .ok { ps with
    u := some (module_unit CodeBlock_New)
    depth := ps.depth + 1 } := by
  cases ps
  cases hu
  rfl

end units

section exit

variable [Build] {ps ps' : ParserState} {uu : ParserUnit} {b b' : CodeBlock}
  {stbl : STable Symbol}

/-- A block is left: its code goes to the scope above. -/
theorem exit_block {ustack : List ParserUnit} (hu : ps.u = some (block_unit stbl b))
    (hstack : ps.ustack = uu :: ustack) (hupper : uu.block = some b') :
    Parser_Exit_Scope ps = .ok { ps with
      u := some { uu with block := some (CodeBlock_Merge b b') }
      ustack
      depth := ps.depth - 1 } := by
  cases ps
  cases uu
  cases hu
  cases hstack
  cases hupper
  rfl

/-- A function is left: its code goes to its symbol. -/
theorem exit_function {ref : SymRef} {sym : Symbol} (hu : ps.u = some (function_unit ref stbl b))
    (hget : ps.getSym ref = .ok sym) (hkind : sym.kind = .SYM_FUNC) :
    Parser_Exit_Scope ps =
      .ok (restore_unit (ps.updateSym ref (Symbol.setCode (add_return b)))) := by
  have hmerge : merge_parser_unit ps = .ok
      { ps.updateSym ref (Symbol.setCode (add_return b)) with
        u := some ⟨.SCOPE_FUNCTION, none, none, none, 0⟩ } := by
    unfold merge_parser_unit
    rw [hu]
    change (ps.getSym ref >>= fun _ => _) = _
    rw [hget, ok_bind, assert_of hkind, ok_bind]
    exact if_pos hkind
  unfold Parser_Exit_Scope
  rw [hmerge]
  rfl

theorem merge_module_unit (hu : ps.u = some (module_unit b)) :
    merge_parser_unit ps = merge_module ps (module_unit b) := by
  unfold merge_parser_unit
  rw [hu]
  rfl

/-- A module is left, and `__init__` is there. -/
theorem exit_module {sym : Symbol} (hu : ps.u = some (module_unit b))
    (hget : STable_Get ps.pkg name__init__ = some sym) :
    Parser_Exit_Scope ps = .ok (restore_unit ps) := by
  unfold Parser_Exit_Scope
  rw [merge_module_unit hu, merge_module, get_module_unit, hget]
  rfl

/-- The first module is left: `__init__` is created with its code. -/
theorem exit_module_new (hu : ps.u = some (module_unit b))
    (hget : STable_Get ps.pkg name__init__ = none) :
    Parser_Exit_Scope ps = .ok (restore_unit { ps with
      pkg := ps.pkg.append
        (Symbol_New name__init__ (some (.proto [] [])) (.SYM_FUNC [] (some b))) }) := by
  let sym : Symbol := Symbol_New name__init__ (some (.proto [] [])) (.SYM_FUNC [] none)
  have hadd : STable_Add_Func ps.pkg name__init__ (.proto [] []) = some (ps.pkg.append sym) :=
    STable_Add_Func_of_none hget
  have hupdate : (ps.pkg.append sym).update name__init__ (Symbol.setCode b) =
      ps.pkg.append (sym.setCode b) := update_append hget _
  have hadded := addSym_module_unit ps b
    (fun stbl => STable_Add_Func stbl name__init__ (.proto [] [])) hadd
  unfold Parser_Exit_Scope
  rw [merge_module_unit hu, merge_module, get_module_unit, hget, ok_bind]
  dsimp only
  rw [hadded, ok_bind]
  exact congrArg (fun pkg => (.ok (restore_unit { ps with pkg }) : Res ParserState)) hupdate

end exit

section faults

variable {ps ps' : ParserState} {b : CodeBlock}

/-- A function can be left only if its symbol is that of a function. -/
theorem exit_function_ok {ref : SymRef} {stbl : STable Symbol}
    (hu : ps.u = some (function_unit ref stbl b)) (h : Parser_Exit_Scope ps = .ok ps') :
    ∃ sym, ps.getSym ref = .ok sym ∧ sym.kind = .SYM_FUNC ∧
      ps' = restore_unit (ps.updateSym ref (Symbol.setCode (add_return b))) := by
  obtain ⟨ps₁, hmerge, _⟩ := bind_eq_ok_iff.mp h
  unfold merge_parser_unit at hmerge
  rw [hu] at hmerge
  change (ps.getSym ref >>= fun _ => _) = _ at hmerge
  obtain ⟨sym, hget, hmerge⟩ := bind_eq_ok_iff.mp hmerge
  obtain ⟨hkind, _⟩ := assert_bind_ok_iff.mp hmerge
  rw [exit_function hu hget hkind] at h
  cases h
  exact ⟨sym, hget, hkind, rfl⟩

/-- A class is never left: its unit still has its code block. -/
theorem exit_class_fails {name : CString} (hu : ps.u = some (class_unit name b)) :
    Parser_Exit_Scope ps ≠ .ok ps' := by
  intro h
  obtain ⟨ps₁, hmerge, _⟩ := bind_eq_ok_iff.mp h
  unfold merge_parser_unit at hmerge
  rw [hu] at hmerge
  change (ps.getSym ⟨.pkg, name⟩ >>= fun _ => _) = _ at hmerge
  obtain ⟨sym, _, hmerge⟩ := bind_eq_ok_iff.mp hmerge
  obtain ⟨_, hmerge⟩ := assert_bind_ok_iff.mp hmerge
  obtain ⟨_, hmerge⟩ := assert_bind_ok_iff.mp hmerge
  obtain ⟨hblock, _⟩ := assert_bind_ok_iff.mp hmerge
  cases hblock

end faults

end koala.parser

open koala.typedesc

namespace koala.parser

set_option linter.style.nameCheck false

/-- A block and the blocks in it. -/
inductive Block where
  | block (inner : List Block)

/-- A function and the blocks in it. -/
structure FuncScope where
  id : Ident
  blocks : List Block

/-- A scope of a module. -/
inductive ModuleScope where
  | function (f : FuncScope)
  | klass (id : Ident) (functions : List FuncScope)

/-- The current unit, the stack and the depth are what they were. -/
structure Restored (ps ps' : ParserState) : Prop where
  u : ps'.u = ps.u
  ustack : ps'.ustack = ps.ustack
  depth : ps'.depth = ps.depth

section balanced

mutual

/-- A block is entered and left without a fault, which restores the units, and so
is every block in it. -/
def Block.Balanced : Block → ParserState → ParserState → Prop
  | .block inner, ps, ps' => ∃ ps₁ ps₂, enter_block ps = .ok ps₁ ∧ BlocksBalanced inner ps₁ ps₂ ∧
      Parser_Exit_Scope ps₂ = .ok ps' ∧ Restored ps ps'

def BlocksBalanced : List Block → ParserState → ParserState → Prop
  | [], ps, ps' => ps' = ps
  | blk :: blocks, ps, ps' => ∃ ps₁, blk.Balanced ps ps₁ ∧ BlocksBalanced blocks ps₁ ps'

end

def FuncScope.Balanced (f : FuncScope) (ps ps' : ParserState) : Prop :=
  ∃ ps₁ ps₂, enter_function f.id ps = .ok ps₁ ∧ BlocksBalanced f.blocks ps₁ ps₂ ∧
    Parser_Exit_Scope ps₂ = .ok ps' ∧ Restored ps ps'

/-- One scope after the other. -/
def Chained {α : Type} (R : α → ParserState → ParserState → Prop) :
    List α → ParserState → ParserState → Prop
  | [], ps, ps' => ps' = ps
  | a :: l, ps, ps' => ∃ ps₁, R a ps ps₁ ∧ Chained R l ps₁ ps'

def ModuleScope.Balanced : ModuleScope → ParserState → ParserState → Prop
  | .function f, ps, ps' => f.Balanced ps ps'
  | .klass id functions, ps, ps' => ∃ ps₁ ps₂, enter_class id ps = .ok ps₁ ∧
      Chained FuncScope.Balanced functions ps₁ ps₂ ∧ Parser_Exit_Scope ps₂ = .ok ps' ∧
      Restored ps ps'

/-- A module is entered and left over some scopes. -/
def ModuleBalanced (scopes : List ModuleScope) (ps ps' : ParserState) : Prop :=
  ∃ ps₁ ps₂, enter_module ps = .ok ps₁ ∧ Chained ModuleScope.Balanced scopes ps₁ ps₂ ∧
    Parser_Exit_Scope ps₂ = .ok ps' ∧ Restored ps ps'

theorem Restored.refl (ps : ParserState) : Restored ps ps := ⟨rfl, rfl, rfl⟩

theorem Restored.trans {ps ps₁ ps' : ParserState} (h : Restored ps ps₁) (h' : Restored ps₁ ps') :
    Restored ps ps' :=
  ⟨h'.u.trans h.u, h'.ustack.trans h.ustack, h'.depth.trans h.depth⟩

theorem FuncScope.Balanced.restored {f : FuncScope} {ps ps' : ParserState}
    (h : f.Balanced ps ps') : Restored ps ps' := by
  obtain ⟨_, _, _, _, _, hrestored⟩ := h
  exact hrestored

theorem ModuleScope.Balanced.restored {scope : ModuleScope} {ps ps' : ParserState}
    (h : scope.Balanced ps ps') : Restored ps ps' := by
  cases scope with
  | function f => exact FuncScope.Balanced.restored h
  | klass id functions =>
    obtain ⟨_, _, _, _, _, hrestored⟩ := h
    exact hrestored

theorem Chained.restored {α : Type} {R : α → ParserState → ParserState → Prop} {l : List α}
    {ps ps' : ParserState} (h : Chained R l ps ps')
    (hstep : ∀ a ps ps', R a ps ps' → Restored ps ps') : Restored ps ps' := by
  induction l generalizing ps with
  | nil =>
    obtain rfl := h
    exact .refl _
  | cons a l ih =>
    obtain ⟨ps₁, ha, hl⟩ := h
    exact (hstep a ps ps₁ ha).trans (ih hl)

/-- A scope is that of a function which the package knows as a function. -/
def ModuleScope.IsFunction (pkg : STable Symbol) : ModuleScope → Prop
  | .function f => ∃ sym, STable_Get pkg f.id.name = some sym ∧ sym.kind = .SYM_FUNC
  | .klass _ _ => False

end balanced

section blocks

variable {ps ps' : ParserState} {u : ParserUnit} {b : CodeBlock}

theorem enter_block_eq (hu : ps.u = some u) :
    enter_block ps = .ok (ps.entered u (block_unit STable_New CodeBlock_New)) := by
  unfold enter_block Parser_Enter_Scope
  rw [hu]
  rfl

theorem CodeBlock_Merge_New (b : CodeBlock) : CodeBlock_Merge CodeBlock_New b = b := by
  unfold CodeBlock_Merge CodeBlock_New
  rw [List.append_nil]

/-- Leaving a block that has no code undoes entering it. -/
theorem exit_entered_block (hu : ps.u = some u) (hblock : u.block = some b) :
    Parser_Exit_Scope (ps.entered u (block_unit STable_New CodeBlock_New)) = .ok ps := by
  have hunit : some { u with block := some b } = ps.u := by rw [hu, ← hblock]
  have hexit : Parser_Exit_Scope (ps.entered u (block_unit STable_New CodeBlock_New)) = _ :=
    exit_block rfl rfl hblock
  rw [hexit, CodeBlock_Merge_New, hunit]
  rfl

mutual

theorem Block.balanced_iff (blk : Block) {ps ps' : ParserState} {u : ParserUnit} {b : CodeBlock}
    (hu : ps.u = some u) (hblock : u.block = some b) : blk.Balanced ps ps' ↔ ps' = ps := by
  cases blk with
  | block inner =>
    let entered := ps.entered u (block_unit STable_New CodeBlock_New)
    have hinner : ∀ ps₂, BlocksBalanced inner entered ps₂ ↔ ps₂ = entered :=
      fun ps₂ => BlocksBalanced.iff inner rfl rfl
    have hexit := exit_entered_block hu hblock
    rw [Block.Balanced]
    constructor
    · rintro ⟨ps₁, ps₂, henter, hblocks, hleave, _⟩
      rw [enter_block_eq hu] at henter
      cases henter
      obtain rfl := (hinner ps₂).mp hblocks
      rw [hexit] at hleave
      cases hleave
      rfl
    · rintro rfl
      exact ⟨_, _, enter_block_eq hu, (hinner _).mpr rfl, hexit, .refl ps'⟩

theorem BlocksBalanced.iff (blocks : List Block) {ps ps' : ParserState} {u : ParserUnit}
    {b : CodeBlock} (hu : ps.u = some u) (hblock : u.block = some b) :
    BlocksBalanced blocks ps ps' ↔ ps' = ps := by
  cases blocks with
  | nil => rw [BlocksBalanced]
  | cons blk blocks =>
    rw [BlocksBalanced]
    constructor
    · rintro ⟨ps₁, hblk, hblocks⟩
      obtain rfl := (blk.balanced_iff hu hblock).mp hblk
      exact (BlocksBalanced.iff blocks hu hblock).mp hblocks
    · rintro rfl
      exact ⟨ps', (blk.balanced_iff hu hblock).mpr rfl,
        (BlocksBalanced.iff blocks hu hblock).mpr rfl⟩

end

end blocks

section functions

variable {ps ps' ps₁ : ParserState} {b : CodeBlock} {id : Ident}

theorem enter_function_module [Build] (hu : ps.u = some (module_unit b)) :
    enter_function id ps = (assert ((STable_Get ps.pkg id.name).isSome = true) >>= fun _ =>
      .ok (ps.entered (module_unit b) ⟨.SCOPE_FUNCTION,
        (STable_Get ps.pkg id.name).map fun _ => ⟨.pkg, id.name⟩,
        some (.own STable_New), some CodeBlock_New, 0⟩)) := by
  cases ps
  cases hu
  rfl

theorem enter_function_eq [Build] {sym : Symbol} (hu : ps.u = some (module_unit b))
    (hget : STable_Get ps.pkg id.name = some sym) :
    enter_function id ps = .ok (ps.entered (module_unit b)
      (function_unit ⟨.pkg, id.name⟩ STable_New CodeBlock_New)) := by
  rw [enter_function_module hu, hget]
  rfl

theorem enter_function_ok (hu : ps.u = some (module_unit b))
    (h : enter_function id ps = .ok ps₁) : ∃ sym, STable_Get ps.pkg id.name = some sym := by
  rw [enter_function_module hu] at h
  exact Option.isSome_iff_exists.mp (assert_bind_ok_iff.mp h).1

theorem getSym_pkg_iff {name : CString} {sym : Symbol} :
    ps.getSym ⟨.pkg, name⟩ = .ok sym ↔ STable_Get ps.pkg name = some sym :=
  deref_eq_ok_iff

theorem restore_entered {u : ParserUnit} (hu : ps.u = some u) (u' : ParserUnit)
    (pkg : STable Symbol) :
    restore_unit { ps.entered u u' with pkg } = { ps with pkg } := by
  cases ps
  cases hu
  rfl

theorem FuncScope.balanced_iff (f : FuncScope) (hu : ps.u = some (module_unit b)) :
    f.Balanced ps ps' ↔ ∃ sym, STable_Get ps.pkg f.id.name = some sym ∧ sym.kind = .SYM_FUNC ∧
      ps' = { ps with
        pkg := ps.pkg.update f.id.name (Symbol.setCode (add_return CodeBlock_New)) } := by
  let entered := ps.entered (module_unit b)
    (function_unit ⟨.pkg, f.id.name⟩ STable_New CodeBlock_New)
  have hblocks : ∀ ps₂, BlocksBalanced f.blocks entered ps₂ ↔ ps₂ = entered :=
    fun ps₂ => BlocksBalanced.iff f.blocks rfl rfl
  unfold FuncScope.Balanced
  constructor
  · rintro ⟨ps₁, ps₂, henter, hinner, hexit, _⟩
    obtain ⟨sym, hget⟩ := enter_function_ok hu henter
    rw [enter_function_eq hu hget] at henter
    cases henter
    obtain rfl := (hblocks ps₂).mp hinner
    obtain ⟨sym', hget', hkind, rfl⟩ := exit_function_ok rfl hexit
    exact ⟨sym', getSym_pkg_iff.mp hget', hkind, restore_entered hu _ _⟩
  · rintro ⟨sym, hget, hkind, rfl⟩
    have hexit : Parser_Exit_Scope entered = _ :=
      exit_function rfl (getSym_pkg_iff.mpr hget) hkind
    exact ⟨_, _, enter_function_eq hu hget, (hblocks _).mpr rfl,
      hexit.trans (congrArg Except.ok (restore_entered hu _ _)), rfl, rfl, rfl⟩

theorem isFunction_update {scope : ModuleScope} {stbl : STable Symbol} {name : CString}
    {c : CodeBlock} : scope.IsFunction (stbl.update name (Symbol.setCode c)) ↔
      scope.IsFunction stbl := by
  cases scope with
  | klass id functions => exact Iff.rfl
  | function f =>
    change (∃ sym, STable_Get (stbl.update name (Symbol.setCode c)) f.id.name = some sym ∧
      sym.kind = .SYM_FUNC) ↔ ∃ sym, STable_Get stbl f.id.name = some sym ∧ sym.kind = .SYM_FUNC
    rw [STable_Get_update (Symbol.setCode_name c)]
    have hkind : ∀ sym : Symbol, (if f.id.name = name then sym.setCode c else sym).kind = sym.kind := by
      intro sym
      split
      · exact Symbol.setCode_kind c sym
      · rfl
    constructor
    · rintro ⟨sym, hget, hsym⟩
      obtain ⟨sym₀, hget₀, rfl⟩ := Option.map_eq_some_iff.mp hget
      exact ⟨sym₀, hget₀, (hkind sym₀).symm.trans hsym⟩
    · rintro ⟨sym, hget, hsym⟩
      exact ⟨_, Option.map_eq_some_iff.mpr ⟨sym, hget, rfl⟩, (hkind sym).trans hsym⟩

/-- The unit of a class cannot be left. -/
theorem klass_not_balanced {functions : List FuncScope} :
    ¬ (ModuleScope.klass id functions).Balanced ps ps' := by
  rintro ⟨ps₁, ps₂, henter, hfunctions, hexit, _⟩
  have hunit : ps₁.u = some (class_unit id.name CodeBlock_New) := by
    obtain ⟨u, _, henter⟩ := bind_eq_ok_iff.mp henter
    obtain ⟨found, _, henter⟩ := bind_eq_ok_iff.mp henter
    obtain ⟨_, henter⟩ := assert_bind_ok_iff.mp henter
    obtain ⟨sym, _, henter⟩ := bind_eq_ok_iff.mp henter
    split at henter
    · cases henter
      rfl
    · cases henter
  have hkept := (hfunctions.restored fun _ _ _ hf => hf.restored).u
  exact exit_class_fails (hkept.trans hunit) hexit

theorem scopes_balanced_iff {scopes : List ModuleScope} (hu : ps.u = some (module_unit b)) :
    (∃ ps', Chained ModuleScope.Balanced scopes ps ps' ∧ Restored ps ps') ↔
      ∀ scope ∈ scopes, scope.IsFunction ps.pkg := by
  induction scopes generalizing ps with
  | nil => exact ⟨fun _ _ h => (nomatch h), fun _ => ⟨ps, rfl, rfl, rfl, rfl⟩⟩
  | cons scope scopes ih =>
    rw [List.forall_mem_cons]
    cases scope with
    | klass id functions =>
      constructor
      · rintro ⟨ps', ⟨ps₁, hklass, _⟩, _⟩
        exact absurd hklass klass_not_balanced
      · rintro ⟨hfalse, _⟩
        exact hfalse.elim
    | function f =>
      let set (code : CodeBlock) : ParserState :=
        { ps with pkg := ps.pkg.update f.id.name (Symbol.setCode code) }
      have hrest : ∀ code, (∃ ps', Chained ModuleScope.Balanced scopes (set code) ps' ∧
          Restored (set code) ps') ↔ _ := fun _ => ih hu
      constructor
      · rintro ⟨ps', ⟨ps₁, hf, hscopes⟩, hrestored⟩
        obtain ⟨sym, hget, hkind, rfl⟩ := (f.balanced_iff hu).mp hf
        refine ⟨⟨sym, hget, hkind⟩, fun scope hscope => ?_⟩
        have hall := (hrest _).mp ⟨ps', hscopes, hrestored.u, hrestored.ustack, hrestored.depth⟩
        exact isFunction_update.mp (hall scope hscope)
      · rintro ⟨⟨sym, hget, hkind⟩, hall⟩
        obtain ⟨ps', hscopes, hrestored⟩ := (hrest (add_return CodeBlock_New)).mpr
          fun scope hscope => isFunction_update.mpr (hall scope hscope)
        exact ⟨ps', ⟨_, (f.balanced_iff hu).mpr ⟨sym, hget, hkind, rfl⟩, hscopes⟩,
          hrestored.u, hrestored.ustack, hrestored.depth⟩

end functions

section module

variable {ps : ParserState}

/-- Leaving the unit of a module never fails. -/
theorem exit_module_total {b : CodeBlock} (hu : ps.u = some (module_unit b)) :
    ∃ pkg, Parser_Exit_Scope ps = .ok (restore_unit { ps with pkg }) := by
  cases hget : STable_Get ps.pkg name__init__ with
  | none => exact ⟨_, exit_module_new hu hget⟩
  | some sym => exact ⟨ps.pkg, exit_module hu hget⟩

/-- A name for the examples. -/
def name_C : CString where
  bytes := [67]
  nonul := by decide

/-- A parser over a package that declares one symbol. -/
def parser_over (data : SymData Symbol) : ParserState where
  filename := name_C
  imports := ⟨STable_New, [], []⟩
  pkg := ⟨[Symbol_New name_C (some (.proto [] [])) data], 1⟩
  extstbl := STable_New
  extdots := []
  symbols := []
  stmts := []
  u := none
  ustack := []
  depth := 0
  errors := []

end module

end koala.parser
