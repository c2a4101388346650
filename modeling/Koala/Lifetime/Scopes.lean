import Koala.Lifetime.Model

open koala.parser (SymKind ScopeKind deref name__init__)

namespace koala.lifetime

set_option linter.style.nameCheck false

structure ParserUnit where
  scope : ScopeKind
  sym : Option Addr
  stbl : Option Nat

/-- The parser of a module, with the table of its package. -/
structure ParserState where
  heap : Heap
  pkg : Nat
  u : Option ParserUnit
  ustack : List ParserUnit

/-- What a compilation does with symbols: names are declared while the syntax trees are built,
and scopes and variables are gone through afterwards. -/
inductive Action where
  | new (kind : SymKind) (name : CString)
  | enter_module
  | enter_class (name : CString)
  | enter_function (name : CString)
  | enter_block
  | declare (name : CString)
  | exit

/-- The package that `new_group` makes, before its modules are compiled. -/
def new_group : ParserState :=
  let (pkg, heap) := STable_New ⟨[], fun _ => none, 0, fun _ => none, []⟩
  ⟨heap, pkg, none, []⟩

/-- `Parser_Enter_Scope` and what its callers store in the new unit. -/
def Parser_Enter_Scope (ps : ParserState) (scope : ScopeKind) (sym : Option Addr)
    (stbl : Option Nat) : ParserState :=
  { ps with u := some ⟨scope, sym, stbl⟩, ustack := ps.u.toList ++ ps.ustack }

/-- A declaration in a module or a class; none where an error is reported. -/
def new_symbol (kind : SymKind) (name : CString) (ps : ParserState) (u : ParserUnit) :
    Res (Option ParserState) := do
  let (found, heap) ← (match kind with
    | .SYM_CONST => STable_Add_Const ps.heap u.stbl name
    | .SYM_VAR => STable_Add_Var ps.heap u.stbl name
    | .SYM_FUNC => STable_Add_Func ps.heap u.stbl name
    | .SYM_CLASS => STable_Add_Class ps.heap u.stbl name
    | .SYM_TRAIT => STable_Add_Trait ps.heap u.stbl name
    | .SYM_IFUNC => STable_Add_IFunc ps.heap u.stbl name
    | .SYM_NFUNC => STable_Add_NFunc ps.heap u.stbl name
    | .SYM_PKG => .ok (none, ps.heap))
  match found with
  | none => .ok none
  | some _ => .ok (some { ps with heap })

/-- What is declared in the scope: classes only in modules. -/
def declares : ScopeKind → SymKind → Bool
  | .SCOPE_MODULE, _ => true
  | .SCOPE_CLASS, kind => kind ≠ .SYM_CLASS ∧ kind ≠ .SYM_TRAIT
  | _, _ => false

/-- The class of a name in the table of the module. -/
def enter_class (name : CString) (ps : ParserState) (u : ParserUnit) :
    Res (Option ParserState) := do
  let found ← STable_Get ps.heap u.stbl name
  match found with
  | none => .ok none
  | some a => do
    let sym ← deref (ps.heap.syms a)
    if sym.kind = .SYM_CLASS ∨ sym.kind = .SYM_TRAIT then
      .ok (some (Parser_Enter_Scope ps .SCOPE_CLASS (some a) sym.stbl))
    else .ok none

/-- The function of a name in the table of the module or the class. -/
def enter_function (name : CString) (ps : ParserState) (u : ParserUnit) :
    Res (Option ParserState) := do
  let found ← STable_Get ps.heap u.stbl name
  match found with
  | none => .ok none
  | some a => do
    let sym ← deref (ps.heap.syms a)
    if sym.kind = .SYM_FUNC then
      let (t, heap) := STable_New ps.heap
      .ok (some (Parser_Enter_Scope { ps with heap } .SCOPE_FUNCTION (some a) (some t)))
    else .ok none

def enter_block (ps : ParserState) : ParserState :=
  let (t, heap) := STable_New ps.heap
  Parser_Enter_Scope { ps with heap } .SCOPE_BLOCK none (some t)

/-- What `parse_block_variable` finds: that the name is taken, or the unit of the function. -/
inductive Found where
  | error
  | function (uu : ParserUnit)
  | none

def parse_block_variable (h : Heap) (name : CString) : List ParserUnit → Res Found
  | [] => .ok .none
  | uu :: ustack => do
    let found ← STable_Get h uu.stbl name
    match found with
    | some _ => .ok .error
    | none =>
      if uu.scope = .SCOPE_FUNCTION ∨ uu.scope = .SCOPE_CLOSURE then .ok (.function uu)
      else parse_block_variable h name ustack

/-- `Vector_Append` to the variables of the function, and `refcnt++`. -/
def append_locvec (h : Heap) (func : Option Addr) (a : Addr) : Res Heap := do
  let f ← deref func
  let funcSym ← deref (h.syms f)
  if funcSym.kind = .SYM_FUNC then do
    let h := h.setSym f { funcSym with locvec := funcSym.locvec ++ [a] }
    let varSym ← deref (h.syms a)
    .ok (h.setSym a { varSym with refcnt := varSym.refcnt + 1 })
  else .error .bounds

/-- A variable of the table is listed by the function. -/
def add_local (ps : ParserState) (stbl : Option Nat) (func : Option Addr) (name : CString) :
    Res (Option ParserState) := do
  let (found, heap) ← STable_Add_Var ps.heap stbl name
  match found with
  | none => .ok none
  | some a => do
    let heap ← append_locvec heap func a
    .ok (some { ps with heap })

/-- None where an error is reported, as for a name that a module or a class did not declare. -/
def update_add_variable (name : CString) (ps : ParserState) (u : ParserUnit) :
    Res (Option ParserState) :=
  match u.scope with
  | .SCOPE_MODULE | .SCOPE_CLASS => do
    let found ← STable_Get ps.heap u.stbl name
    match found with
    | none => .ok none
    | some a => do
      let varSym ← deref (ps.heap.syms a)
      if varSym.kind = .SYM_CONST ∨ varSym.kind = .SYM_VAR then .ok (some ps) else .ok none
  | .SCOPE_FUNCTION | .SCOPE_CLOSURE => add_local ps u.stbl u.sym name
  | .SCOPE_BLOCK => do
    match ← parse_block_variable ps.heap name ps.ustack with
    | .error => .ok none
    | .none => .ok (some ps)
    | .function uu => add_local ps u.stbl uu.sym name

/-- `merge_parser_unit`, as far as it changes symbols and tables. -/
def merge_parser_unit (ps : ParserState) (u : ParserUnit) : Res Heap :=
  match u.scope with
  | .SCOPE_MODULE => do
    let found ← STable_Get ps.heap u.stbl name__init__
    match found with
    | some _ => .ok ps.heap
    | none => do
      let (added, heap) ← STable_Add_Func ps.heap u.stbl name__init__
      if added.isSome then .ok heap else .error .assertion
  | .SCOPE_CLASS => do
    let a ← deref u.sym
    let clsSym ← deref (ps.heap.syms a)
    if (clsSym.kind = .SYM_CLASS ∨ clsSym.kind = .SYM_TRAIT) ∧ u.stbl = clsSym.stbl then .ok ps.heap
    else .error .assertion
  | .SCOPE_FUNCTION => do
    let a ← deref u.sym
    let funcSym ← deref (ps.heap.syms a)
    if funcSym.kind = .SYM_FUNC then STable_Free u.stbl ps.heap else .error .assertion
  | .SCOPE_BLOCK => do
    let _ ← deref ps.ustack.head?
    STable_Free u.stbl ps.heap
  | .SCOPE_CLOSURE => .error .assertion

def Parser_Exit_Scope (ps : ParserState) (u : ParserUnit) : Res ParserState := do
  let heap ← merge_parser_unit ps u
  .ok { ps with heap, u := ps.ustack.head?, ustack := ps.ustack.tail }

/-- One action; none where the compilation reports an error, or where the grammar has no such
action. -/
def step (ps : ParserState) : Action → Res (Option ParserState)
  | .enter_module =>
    match ps.u with
    | some _ => .ok none
    | none => .ok (some (Parser_Enter_Scope ps .SCOPE_MODULE none (some ps.pkg)))
  | .new kind name =>
    match ps.u with
    | none => .ok none
    | some u => if declares u.scope kind then new_symbol kind name ps u else .ok none
  | .enter_class name =>
    match ps.u with
    | none => .ok none
    | some u => if u.scope = .SCOPE_MODULE then enter_class name ps u else .ok none
  | .enter_function name =>
    match ps.u with
    | none => .ok none
    | some u =>
      if u.scope = .SCOPE_MODULE ∨ u.scope = .SCOPE_CLASS then enter_function name ps u
      else .ok none
  | .enter_block =>
    match ps.u with
    | none => .ok none
    | some _ => .ok (some (enter_block ps))
  | .declare name =>
    match ps.u with
    | none => .ok none
    | some u => update_add_variable name ps u
  | .exit =>
    match ps.u with
    | none => .ok none
    | some u => do
      let ps ← Parser_Exit_Scope ps u
      .ok (some ps)

/-- The actions of a compilation, up to the first error. -/
def run : List Action → ParserState → Res (Option ParserState)
  | [], ps => .ok (some ps)
  | action :: actions, ps => do
    match ← step ps action with
    | none => .ok none
    | some ps => run actions ps

end koala.lifetime

open koala.hashtable
open koala.parser (SymKind deref)

namespace koala.lifetime

set_option linter.style.nameCheck false

theorem symbol_equal_equivalence : Equivalence fun s1 s2 => symbol_equal s1 s2 = true where
  refl _ := decide_eq_true rfl
  symm h := decide_eq_true (of_decide_eq_true h).symm
  trans h h' := decide_eq_true ((of_decide_eq_true h).trans (of_decide_eq_true h'))

theorem hash_of_symbol_equal (s1 s2 : CString) (h : symbol_equal s1 s2 = true) :
    hash_string s1 = hash_string s2 := congrArg hash_string (of_decide_eq_true h)

/-- The table holds these symbols, in the order in which they came. -/
abbrev Holds (table : HashTable Addr) (l : List Addr) : Prop :=
  MapRep Addr.name hash_string symbol_equal table l

/-- The symbols `l` are left in a table that is taken apart. -/
def Left (table : HashTable Addr) (l : List Addr) : Prop :=
  Linked Addr.name hash_string symbol_equal table l ∧ l.length ≤ table.nr_nodes

theorem Holds.left {table : HashTable Addr} {l : List Addr} (h : Holds table l) :
    Left table l := by
  refine ⟨h.linked, ?_⟩
  obtain ⟨b, hrep, rfl, _⟩ := h
  exact Nat.le_of_eq hrep.nr_nodes.symm

theorem Holds.nodup {table : HashTable Addr} {l : List Addr} (h : Holds table l) : l.Nodup :=
  h.linked.nodup

theorem Left.unlink {table : HashTable Addr} {a : Addr} {l : List Addr}
    (h : Left table (a :: l)) : Left (unlink table a) l :=
  ⟨h.1.unlink, Nat.le_of_succ_le h.2⟩

theorem holds_init : Holds HashTable_Init [] :=
  ⟨_, rep_init, rfl, ordered_map.distinct_nil⟩

theorem deref_some {α : Type} (a : α) : deref (some a) = .ok a := rfl

section get

variable {h : Heap} {t : Nat} {table : HashTable Addr} {l : List Addr} {name : CString}

theorem STable_Get_eq (htable : h.tables t = some table) (hl : Holds table l) :
    STable_Get h (some t) name = .ok (ordered_map.find Addr.name symbol_equal l name) := by
  have hfind := mapRep_find symbol_equal_equivalence hash_of_symbol_equal hl name
  simp only [STable_Get, htable, deref_some, ok_bind, hfind]

end get

section add

/-- The heap with a new symbol, whose node is in a table. -/
def Heap.added (h : Heap) (a : Addr) (sym : Symbol) (t : Nat) (table : HashTable Addr) : Heap :=
  { (h.setTable t table).setSym a sym with addrs := h.addrs ++ [a] }

variable {h : Heap} {a : Addr} {kind : SymKind}

/-- A symbol that was not made further is freed alone. -/
theorem Symbol_Free_new (ha : h.syms a = some (__symbol_new kind)) :
    ∃ h', Symbol_Free h a = .ok h' := by
  have hfree : ∀ h : Heap, (∃ sym, h.syms a = some sym) → ∃ h', __symbol_free h a = .ok h' := by
    rintro h ⟨sym, hsym⟩
    exact ⟨_, by rw [__symbol_free, hsym, deref_some, ok_bind]⟩
  have hset : (h.setSym a { __symbol_new kind with refcnt := 0 }).syms a =
      some { __symbol_new kind with refcnt := 0 } := Function.update_self ..
  obtain ⟨h', hfreed⟩ := hfree _ ⟨_, hset⟩
  refine ⟨h', ?_⟩
  rw [Symbol_Free, DEPTH, Symbol_Free.loop, ha, deref_some, ok_bind]
  cases kind <;> exact hfreed

variable {t : Nat} {table : HashTable Addr} {l : List Addr} {name : CString}

/-- A name that the table does not have is added with a new symbol. -/
theorem STable_Add_cases (kind : SymKind) (htable : h.tables t = some table) (hl : Holds table l)
    (hfresh : ∀ a ∈ l, a.addr < h.addrs.length) :
    (ordered_map.find Addr.name symbol_equal l name).isSome ∧
      (∃ h', STable_Add kind h (some t) name = .ok (none, h')) ∨
    ordered_map.find Addr.name symbol_equal l name = none ∧
      ∃ table', Holds table' (l ++ [⟨h.addrs.length, name⟩]) ∧
        STable_Add kind h (some t) name = .ok (some ⟨h.addrs.length, name⟩,
          h.added ⟨h.addrs.length, name⟩ { __symbol_new kind with hnode := some t } t table') := by
  obtain ⟨res, table', hinsert, hanswer, hrep⟩ :=
    mapRep_insert symbol_equal_equivalence hash_of_symbol_equal hl ⟨h.addrs.length, name⟩
  have hnew : (⟨h.addrs.length, name⟩ : Addr) ∉ l := fun hmem => Nat.lt_irrefl _ (hfresh _ hmem)
  have hadd : STable_Add kind h (some t) name =
      if res < 0 then do
        let h ← Symbol_Free (((Symbol_New h kind name).2).setTable t table') ⟨h.addrs.length, name⟩
        .ok (none, h)
      else .ok (some ⟨h.addrs.length, name⟩, (((Symbol_New h kind name).2).setTable t table').setSym
        ⟨h.addrs.length, name⟩ { __symbol_new kind with hnode := some t }) := by
    have hsame : (Symbol_New h kind name).2.tables t = some table := htable
    simp only [STable_Add, deref_some, ok_bind]
    change (deref ((Symbol_New h kind name).2.tables t) >>= _) = _
    rw [hsame, deref_some, ok_bind]
    have hinsert' : HashTable_Insert Addr.name hash_string symbol_equal table
        (Symbol_New h kind name).1 = some (res, table') := hinsert
    rw [hinsert']
    rfl
  by_cases hfound : (ordered_map.find Addr.name symbol_equal l name).isSome
  · have hstep : mapStep Addr.name symbol_equal l (.insert ⟨h.addrs.length, name⟩) =
        (l, .code (-1)) := if_pos (Or.inr hfound)
    rw [hstep] at hanswer
    obtain rfl : (-1 : Int) = res := Answer.code.inj hanswer
    obtain ⟨h', hfree⟩ := @Symbol_Free_new (((Symbol_New h kind name).2).setTable t table')
      ⟨h.addrs.length, name⟩ kind (Function.update_self ..)
    refine Or.inl ⟨hfound, h', ?_⟩
    rw [hadd, if_pos (by decide), hfree]
    rfl
  · have hstep : mapStep Addr.name symbol_equal l (.insert ⟨h.addrs.length, name⟩) =
        (l ++ [⟨h.addrs.length, name⟩], .code 0) :=
      if_neg (not_or.mpr ⟨hnew, hfound⟩)
    rw [hstep] at hanswer hrep
    obtain rfl : (0 : Int) = res := Answer.code.inj hanswer
    refine Or.inr ⟨Option.not_isSome_iff_eq_none.mp hfound, table', hrep, ?_⟩
    rw [hadd, if_neg (by decide)]
    have hsyms : Function.update (Function.update h.syms ⟨h.addrs.length, name⟩
        (some (__symbol_new kind))) ⟨h.addrs.length, name⟩
        (some { __symbol_new kind with hnode := some t }) =
      Function.update h.syms ⟨h.addrs.length, name⟩
        (some { __symbol_new kind with hnode := some t }) := Function.update_idem ..
    exact congrArg Except.ok (congrArg (Prod.mk _) (by
      simp only [Heap.added, Heap.setSym, Heap.setTable, Symbol_New, hsyms]))

end add

section visit

variable {σ : Type} {heap : σ → Heap} {visit : σ → Addr → Res σ} {t : Nat}

theorem visit_loop_spec (P : List Addr → σ → Prop)
    (hnext : ∀ a l s, P (a :: l) s → ∃ sym table, (heap s).syms a = some sym ∧
      (heap s).tables t = some table ∧ table.llink.next (some a) = l.head?)
    (hvisit : ∀ a l s, P (a :: l) s → ∃ s', visit s a = .ok s' ∧ P l s') {l : List Addr} {s : σ}
    {fuel : Nat} (hroom : l.length ≤ fuel) (hP : P l s) :
    ∃ s', STable_Visit.loop heap visit t fuel s l.head? = .ok s' ∧ P [] s' := by
  induction l generalizing s fuel with
  | nil => exact ⟨s, by rw [List.head?_nil, STable_Visit.loop], hP⟩
  | cons a l ih =>
    cases fuel with
    | zero => simp at hroom
    | succ fuel =>
      obtain ⟨sym, table, hsym, htable, hhead⟩ := hnext a l s hP
      obtain ⟨s₁, hs₁, hP₁⟩ := hvisit a l s hP
      obtain ⟨s', hrest, hP'⟩ := ih (Nat.le_of_succ_le_succ hroom) hP₁
      refine ⟨s', ?_, hP'⟩
      rw [List.head?_cons, STable_Visit.loop, hsym, htable, deref_some, deref_some, ok_bind, ok_bind,
        hhead, hs₁, ok_bind, hrest]

/-- Where each visit goes from what holds before it to what holds after it, and the next node is
found before, all symbols are visited. -/
theorem STable_Visit_spec (P : List Addr → σ → Prop)
    (hnext : ∀ a l s, P (a :: l) s → ∃ sym table, (heap s).syms a = some sym ∧
      (heap s).tables t = some table ∧ table.llink.next (some a) = l.head?)
    (hvisit : ∀ a l s, P (a :: l) s → ∃ s', visit s a = .ok s' ∧ P l s') {l : List Addr} {s : σ}
    {table : HashTable Addr} (htable : (heap s).tables t = some table) (hleft : Left table l)
    (hP : P l s) : ∃ s', STable_Visit heap visit t s = .ok s' ∧ P [] s' := by
  obtain ⟨s', hrun, hP'⟩ := visit_loop_spec P hnext hvisit hleft.2 hP
  refine ⟨s', ?_, hP'⟩
  rw [STable_Visit, htable, deref_some, ok_bind, hleft.1.first]
  exact hrun

end visit

/-- The node behind another one of a table. -/
theorem Holds.next {table : HashTable Addr} {a : Addr} {l r : List Addr}
    (h : Holds table (l ++ a :: r)) : table.llink.next (some a) = r.head? := by
  obtain ⟨b, hrep, horder, _⟩ := h
  have hseg := hrep.ring.seg
  rw [horder, List.map_append, List.map_cons, intrusive.Links.seg_append] at hseg
  cases r with
  | nil => exact hseg.2.1
  | cons b r => exact hseg.2.1

end koala.lifetime
