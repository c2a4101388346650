import Koala.HashTable.Map
import Koala.Bytes
import Koala.Parser.State

open koala.hashtable (HashTable HashTable_Init HashTable_Insert HashTable_Find unlink)
open koala.parser (SymKind ScopeKind deref name__init__)

namespace koala.lifetime

set_option linter.style.nameCheck false

/-- The address of a symbol, which no other gets later, and the name that is stored there. -/
structure Addr where
  addr : Nat
  name : CString
  deriving DecidableEq

/-- A symbol. Its node is in the lists of the table `hnode`, or in none and points to itself.
A function lists its variables in `locvec`; a class or a trait has a table. -/
structure Symbol where
  kind : SymKind
  refcnt : Int
  hnode : Option Nat
  locvec : List Addr
  stbl : Option Nat

/-- The symbols and the tables that are allocated. The addresses in use so far and those that
were freed are noted in their order. -/
structure Heap where
  addrs : List Addr
  syms : Addr → Option Symbol
  ntables : Nat
  tables : Nat → Option (HashTable Addr)
  freed : List Addr

namespace Heap

def setSym (h : Heap) (a : Addr) (sym : Symbol) : Heap :=
  { h with syms := Function.update h.syms a (some sym) }

def setTable (h : Heap) (t : Nat) (table : HashTable Addr) : Heap :=
  { h with tables := Function.update h.tables t (some table) }

end Heap

/-- What `Malloc` and `Init_HashNode` leave, and the counter of a new symbol. -/
def __symbol_new (kind : SymKind) : Symbol := ⟨kind, 1, none, [], none⟩

def Symbol_New (h : Heap) (kind : SymKind) (name : CString) : Addr × Heap :=
  let a := ⟨h.addrs.length, name⟩
  (a, { h.setSym a (__symbol_new kind) with addrs := h.addrs ++ [a] })

/-- `Mfree` of a symbol. -/
def __symbol_free (h : Heap) (a : Addr) : Res Heap := do
  let _ ← deref (h.syms a)
  .ok { h with syms := Function.update h.syms a none, freed := h.freed ++ [a] }

def STable_New (h : Heap) : Nat × Heap :=
  (h.ntables, { h.setTable h.ntables HashTable_Init with ntables := h.ntables + 1 })

def Remove_HashNode (h : Heap) (a : Addr) : Res Heap := do
  let sym ← deref (h.syms a)
  match sym.hnode with
  | none => .ok h
  | some t => do
    let table ← deref (h.tables t)
    .ok ((h.setTable t (unlink table a)).setSym a { sym with hnode := none })

section visit

variable {σ : Type} (heap : σ → Heap) (visit : σ → Addr → Res σ)

/-- The loop of `HashTable_Visit`, which reads the next node before it visits one. -/
def STable_Visit.loop (t : Nat) : Nat → σ → Option Addr → Res σ
  | _, s, none => .ok s
  | 0, _, some _ => .error .fuel
  | fuel + 1, s, some a => do
    let _ ← deref ((heap s).syms a)
    let table ← deref ((heap s).tables t)
    let nxt := table.llink.next (some a)
    let s ← visit s a
    loop t fuel s nxt

def STable_Visit (t : Nat) (s : σ) : Res σ := do
  let table ← deref ((heap s).tables t)
  STable_Visit.loop heap visit t table.nr_nodes s (table.llink.next none)

end visit

/-- `HashTable_Fini` without a function to call. -/
def HashTable_Fini (t : Nat) (h : Heap) : Res Heap := STable_Visit id Remove_HashNode t h

def __STable_Free (visit : Heap → Addr → Res Heap) (stbl : Option Nat) (h : Heap) : Res Heap :=
  match stbl with
  | none => .ok h
  | some t => do
    let h ← STable_Visit id visit t h
    let h ← HashTable_Fini t h
    .ok { h with tables := Function.update h.tables t none }

/-- `__symbol_free_fn`, given what frees a symbol. -/
def symbol_free_fn (free : Heap → Addr → Res Heap) (h : Heap) (a : Addr) : Res Heap := do
  let h ← Remove_HashNode h a
  free h a

/-- The function that the kind of a symbol has for `__symbol_free`. -/
def symops_free (free : Heap → Addr → Res Heap) (sym : Symbol) (h : Heap) (a : Addr) :
    Res Heap :=
  match sym.kind with
  | .SYM_FUNC => do
    let h ← sym.locvec.foldlM (symbol_free_fn free) h
    __symbol_free h a
  | .SYM_CLASS | .SYM_TRAIT => do
    let h ← __STable_Free (symbol_free_fn free) sym.stbl h
    __symbol_free h a
  | _ => __symbol_free h a

/-- `Symbol_Free` to some depth of symbols that are freed with others. -/
def Symbol_Free.loop : Nat → Heap → Addr → Res Heap
  | 0, _, _ => .error .fuel
  | depth + 1, h, a => do
    let sym ← deref (h.syms a)
    let h := h.setSym a { sym with refcnt := sym.refcnt - 1 }
    if sym.refcnt - 1 ≤ 0 then
      if sym.refcnt - 1 < 0 then .error .assertion
      else symops_free (loop depth) sym h a
    else .ok h

/-- A class is freed with its functions, and they with their variables. -/
def DEPTH : Nat := 3

def Symbol_Free (h : Heap) (a : Addr) : Res Heap := Symbol_Free.loop DEPTH h a

def __symbol_free_fn (h : Heap) (a : Addr) : Res Heap := symbol_free_fn Symbol_Free h a

def STable_Free (stbl : Option Nat) (h : Heap) : Res Heap := __STable_Free __symbol_free_fn stbl h

def symbol_equal (s1 s2 : CString) : Bool := s1 = s2

def STable_Get (h : Heap) (stbl : Option Nat) (name : CString) : Res (Option Addr) :=
  match stbl with
  | none => .ok none
  | some t => do
    let table ← deref (h.tables t)
    match HashTable_Find Addr.name hash_string symbol_equal table name with
    | none => .error .fuel
    | some found => .ok found

/-- What all `STable_Add` functions do first: a new symbol is inserted, or freed where one of its
name is there. -/
def STable_Add (kind : SymKind) (h : Heap) (stbl : Option Nat) (name : CString) :
    Res (Option Addr × Heap) := do
  let t ← deref stbl
  let (a, h) := Symbol_New h kind name
  let table ← deref (h.tables t)
  match HashTable_Insert Addr.name hash_string symbol_equal table a with
  | none => .error .fuel
  | some (res, table) =>
    let h := h.setTable t table
    if res < 0 then do
      let h ← Symbol_Free h a
      .ok (none, h)
    else .ok (some a, h.setSym a { __symbol_new kind with hnode := some t })

def STable_Add_Const := STable_Add .SYM_CONST

def STable_Add_Var := STable_Add .SYM_VAR

def STable_Add_Func := STable_Add .SYM_FUNC

def STable_Add_IFunc := STable_Add .SYM_IFUNC

def STable_Add_NFunc := STable_Add .SYM_NFUNC

/-- `STable_Add_Class` and `STable_Add_Trait`, whose symbols get a table. -/
def STable_Add_Klass (kind : SymKind) (h : Heap) (stbl : Option Nat) (name : CString) :
    Res (Option Addr × Heap) := do
  let (found, h) ← STable_Add kind h stbl name
  match found with
  | none => .ok (none, h)
  | some a => do
    let sym ← deref (h.syms a)
    let (t, h) := STable_New h
    .ok (some a, h.setSym a { sym with stbl := some t })

def STable_Add_Class := STable_Add_Klass .SYM_CLASS

def STable_Add_Trait := STable_Add_Klass .SYM_TRAIT

/-- The variables of a function that `__func_gen` adds to the image. -/
def __add_locvar (h : Heap) : List Addr → Res (List Addr)
  | [] => .ok []
  | a :: vec => do
    let varSym ← deref (h.syms a)
    if varSym.kind = .SYM_VAR then do
      let rest ← __add_locvar h vec
      .ok (a :: rest)
    else .error .assertion

/-- `__gen_image_func`, as far as it reads symbols: the variables of functions that it adds to
the image. -/
def __gen_image_func : Nat → Heap × List Addr → Addr → Res (Heap × List Addr)
  | 0, _, _ => .error .fuel
  | depth + 1, (h, locvars), a => do
    let sym ← deref (h.syms a)
    match sym.kind with
    | .SYM_FUNC => do
      let added ← __add_locvar h sym.locvec
      .ok (h, locvars ++ added)
    | .SYM_CLASS | .SYM_TRAIT => do
      let t ← deref sym.stbl
      STable_Visit Prod.fst (__gen_image_func depth) t (h, locvars)
    | _ => .ok (h, locvars)

def Gen_Image (t : Nat) (h : Heap) : Res (Heap × List Addr) :=
  STable_Visit Prod.fst (__gen_image_func DEPTH) t (h, [])

end koala.lifetime
