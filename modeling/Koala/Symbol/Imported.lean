import Koala.Image.Preserved
import Koala.Symbol.Exported

open koala.atomtable koala.image koala.package koala.parser koala.typedesc koala.typedesc.Store

namespace koala.symbol

set_option linter.style.nameCheck false

/-- A symbol as it is seen from other packages. -/
structure Entry where
  name : CString
  kind : SymKind
  desc : Option TypeDesc

def entry (sym : parser.Symbol) : Entry := ⟨sym.name, sym.kind, sym.desc⟩

/-- The constants and variables of a package. -/
def Symbol.vars : Symbol → List Entry
  | .member (.SYM_CONST name desc) => desc.toList.map fun desc => ⟨name, .SYM_CONST, some desc⟩
  | .member (.SYM_VAR name desc) => desc.toList.map fun desc => ⟨name, .SYM_VAR, some desc⟩
  | _ => []

def Symbol.funcs : Symbol → List Entry
  | .member (.SYM_FUNC name desc _ _) => [⟨name, .SYM_FUNC, some desc.desc⟩]
  | _ => []

def Member.nfuncs : Member → List Entry
  | .SYM_NFUNC name desc => [⟨name, .SYM_NFUNC, some desc.desc⟩]
  | _ => []

/-- The native functions, those of classes and traits with them. -/
def Symbol.nfuncs : Symbol → List Entry
  | .member m => m.nfuncs
  | .SYM_CLASS _ _ stbl => stbl.flatMap Member.nfuncs
  | .SYM_TRAIT _ _ stbl => stbl.flatMap Member.nfuncs

/-- The entries with a public name, of those with one name the first. -/
def visible (entries : List Entry) : List Entry :=
  firsts Entry.name [] (entries.filter fun e => IsAccess e.name)

/-- What other packages see of a package. -/
def exported (stbl : List Symbol) : List Entry :=
  visible (stbl.flatMap Symbol.vars ++ stbl.flatMap Symbol.funcs ++ stbl.flatMap Symbol.nfuncs)

/-- No type of the package is taken for another one when it is stored. -/
def Unconfused (stbl : List Symbol) : Prop :=
  (storedAll (held AtomTable_New) (stbl.flatMap Symbol.exports)).1 = stbl.flatMap Symbol.exports

section entries

def varEntry (var : VarInfo) : Entry :=
  ⟨var.name, if var.konst = 0 then .SYM_VAR else .SYM_CONST, some var.desc⟩

def funcEntry (kind : SymKind) (func : FuncInfo) : Entry := ⟨func.name, kind, some func.desc.desc⟩

/-- The entries that the getters of an image give. -/
def reported (adds : List Add) : List Entry :=
  (adds.flatMap Add.var).map varEntry ++ (adds.flatMap Add.func).map (funcEntry .SYM_FUNC) ++
    (adds.flatMap Add.nfunc).map (funcEntry .SYM_NFUNC)

theorem map_flatMap_declared {β : Type} {f : Add → List β} (h : ∀ a, (declared a).flatMap f = f a)
    (adds : List Add) : (adds.flatMap declared).flatMap f = adds.flatMap f := by
  rw [List.flatMap_assoc]
  exact List.flatMap_congr fun a _ => h a

theorem reported_declared (adds : List Add) : reported (adds.flatMap declared) = reported adds := by
  have hvar : ∀ a, (declared a).flatMap (fun a => (Add.var a).map varEntry) =
      (Add.var a).map varEntry := by
    intro a
    cases a <;> rfl
  have hfunc : ∀ a, (declared a).flatMap (fun a => (Add.func a).map (funcEntry .SYM_FUNC)) =
      (Add.func a).map (funcEntry .SYM_FUNC) := by
    intro a
    cases a <;> rfl
  have hnfunc : ∀ a, (declared a).flatMap (fun a => (Add.nfunc a).map (funcEntry .SYM_NFUNC)) =
      (Add.nfunc a).map (funcEntry .SYM_NFUNC) := by
    intro a
    cases a <;> rfl
  simp only [reported, List.map_flatMap]
  rw [map_flatMap_declared hvar, map_flatMap_declared hfunc, map_flatMap_declared hnfunc]

/-- A call stores its types as it stores them without its code. -/
theorem stored_declared (S : Store) (a : Add) :
    storedAll S (declared a) = (declared (a.stored S).1, (a.stored S).2) := by
  cases a with
  | NFunc klazz name proto => cases klazz <;> rfl
  | _ => rfl

theorem storedAll_append (S : Store) (adds adds' : List Add) :
    storedAll S (adds ++ adds') = ((storedAll S adds).1 ++ (storedAll (storedAll S adds).2 adds').1,
      (storedAll (storedAll S adds).2 adds').2) := by
  induction adds generalizing S with
  | nil => rfl
  | cons a adds ih =>
    rw [List.cons_append, storedAll, ih]
    rfl

theorem storedAll_declared (S : Store) (adds : List Add) :
    (storedAll S (adds.flatMap declared)).1 = (storedAll S adds).1.flatMap declared := by
  induction adds generalizing S with
  | nil => rfl
  | cons a adds ih =>
    rw [List.flatMap_cons, storedAll_append, stored_declared]
    dsimp only
    rw [ih, storedAll, List.flatMap_cons]

theorem flatMap_stored {β : Type} {f : Add → List β}
    (h : ∀ (S : Store) (a : Add), f (a.stored S).1 = f a) (S : Store) (adds : List Add) :
    (storedAll S adds).1.flatMap f = adds.flatMap f := by
  induction adds generalizing S with
  | nil => rfl
  | cons a adds ih => rw [storedAll, List.flatMap_cons, List.flatMap_cons, h, ih]

/-- Storing types changes no name and no kind. -/
theorem reported_stored (S : Store) (adds : List Add) :
    (reported (storedAll S adds).1).map (fun e => (e.name, e.kind)) =
      (reported adds).map fun e => (e.name, e.kind) := by
  have hvar : ∀ (S : Store) (a : Add),
      (Add.var (a.stored S).1).map (fun var => (var.name, (varEntry var).kind)) =
        (Add.var a).map fun var => (var.name, (varEntry var).kind) := by
    intro S a
    cases a with
    | NFunc klazz => cases klazz <;> rfl
    | _ => rfl
  have hfunc : ∀ (S : Store) (a : Add),
      (Add.func (a.stored S).1).map (fun func => (func.name, SymKind.SYM_FUNC)) =
        (Add.func a).map fun func => (func.name, SymKind.SYM_FUNC) := by
    intro S a
    cases a with
    | NFunc klazz => cases klazz <;> rfl
    | _ => rfl
  have hnfunc : ∀ (S : Store) (a : Add),
      (Add.nfunc (a.stored S).1).map (fun func => (func.name, SymKind.SYM_NFUNC)) =
        (Add.nfunc a).map fun func => (func.name, SymKind.SYM_NFUNC) := by
    intro S a
    cases a with
    | NFunc klazz => cases klazz <;> rfl
    | _ => rfl
  simp only [reported, List.map_append, List.map_map, List.map_flatMap]
  congr 1
  · congr 1
    · exact flatMap_stored hvar S adds
    · exact flatMap_stored hfunc S adds
  · exact flatMap_stored hnfunc S adds

section exports

variable {β : Type} {f : Add → List β}

theorem locvars_flatMap (h : ∀ name desc pos index, f (.LocVar name desc pos index) = [])
    (locvec : List parser.LocVar) : (locvec.flatMap fun var => var.desc.toList.map fun desc =>
      Add.LocVar var.name desc (BitVec.ofNat 32 var.index) 0).flatMap f = [] := by
  refine List.flatMap_eq_nil_iff.mpr fun a ha => ?_
  obtain ⟨var, _, ha⟩ := List.mem_flatMap.mp ha
  obtain ⟨desc, _, rfl⟩ := List.mem_map.mp ha
  exact h ..

theorem Member.vars_exports (m : Member) :
    (m.exports none).flatMap (fun a => (Add.var a).map varEntry) = (Symbol.member m).vars := by
  cases m with
  | SYM_CONST name desc => cases desc <;> rfl
  | SYM_VAR name desc => cases desc <;> rfl
  | SYM_FUNC name desc locvec code =>
    rw [Member.exports, List.flatMap_cons, locvars_flatMap (by intros; rfl)]
    rfl
  | _ => rfl

theorem Member.funcs_exports (m : Member) :
    (m.exports none).flatMap (fun a => (Add.func a).map (funcEntry .SYM_FUNC)) =
      (Symbol.member m).funcs := by
  cases m with
  | SYM_CONST name desc => cases desc <;> rfl
  | SYM_VAR name desc => cases desc <;> rfl
  | SYM_FUNC name desc locvec code =>
    rw [Member.exports, List.flatMap_cons, locvars_flatMap (by intros; rfl)]
    rfl
  | _ => rfl

/-- The members of a class are no variables and no functions of the package. -/
theorem Member.klass_exports (klass : CString) (m : Member) :
    (m.exports (some klass)).flatMap (fun a => (Add.var a).map varEntry) = [] ∧
      (m.exports (some klass)).flatMap (fun a => (Add.func a).map (funcEntry .SYM_FUNC)) = [] := by
  cases m with
  | SYM_VAR name desc => cases desc <;> exact ⟨rfl, rfl⟩
  | SYM_FUNC name desc locvec code =>
    rw [Member.exports, List.flatMap_cons, locvars_flatMap (by intros; rfl), List.flatMap_cons,
      locvars_flatMap (by intros; rfl)]
    exact ⟨rfl, rfl⟩
  | _ => exact ⟨rfl, rfl⟩

theorem Member.nfuncs_exports (classname : Option CString) (m : Member) :
    (m.exports classname).flatMap (fun a => (Add.nfunc a).map (funcEntry .SYM_NFUNC)) =
      m.nfuncs := by
  cases m with
  | SYM_CONST name desc => cases desc <;> cases classname <;> rfl
  | SYM_VAR name desc => cases desc <;> cases classname <;> rfl
  | SYM_FUNC name desc locvec code =>
    rw [Member.exports, List.flatMap_cons, locvars_flatMap (by intros; rfl)]
    cases classname <;> rfl
  | SYM_IFUNC name desc => cases classname <;> rfl
  | SYM_NFUNC name desc => rfl

theorem klass_flatMap {g : Member → List Entry} {klass : CString} (stbl : List Member)
    {f : Add → List Entry} (h : ∀ m : Member, (m.exports (some klass)).flatMap f = g m) :
    (stbl.flatMap (Member.exports (some klass))).flatMap f = stbl.flatMap g := by
  rw [List.flatMap_assoc]
  exact List.flatMap_congr fun m _ => h m

theorem Symbol.vars_exports (sym : Symbol) :
    sym.exports.flatMap (fun a => (Add.var a).map varEntry) = sym.vars := by
  cases sym with
  | member m => exact m.vars_exports
  | SYM_CLASS name supers stbl | SYM_TRAIT name supers stbl =>
    have hmembers := klass_flatMap stbl fun m => (m.klass_exports name).1
    rw [Symbol.exports, List.flatMap_cons, hmembers]
    simp [Add.var, Symbol.vars]

theorem Symbol.funcs_exports (sym : Symbol) :
    sym.exports.flatMap (fun a => (Add.func a).map (funcEntry .SYM_FUNC)) = sym.funcs := by
  cases sym with
  | member m => exact m.funcs_exports
  | SYM_CLASS name supers stbl | SYM_TRAIT name supers stbl =>
    have hmembers := klass_flatMap stbl fun m => (m.klass_exports name).2
    rw [Symbol.exports, List.flatMap_cons, hmembers]
    simp [Add.func, Symbol.funcs]

theorem Symbol.nfuncs_exports (sym : Symbol) :
    sym.exports.flatMap (fun a => (Add.nfunc a).map (funcEntry .SYM_NFUNC)) = sym.nfuncs := by
  cases sym with
  | member m => exact m.nfuncs_exports none
  | SYM_CLASS name supers stbl | SYM_TRAIT name supers stbl =>
    have hmembers := klass_flatMap stbl (Member.nfuncs_exports (some name))
    rw [Symbol.exports, List.flatMap_cons, hmembers]
    simp [Add.nfunc, Symbol.nfuncs]

/-- The calls of a package report its constants, variables, functions and native
functions, and the native functions of its classes. -/
theorem reported_exports (stbl : List Symbol) : reported (stbl.flatMap Symbol.exports) =
    stbl.flatMap Symbol.vars ++ stbl.flatMap Symbol.funcs ++ stbl.flatMap Symbol.nfuncs := by
  simp only [reported, List.map_flatMap, List.flatMap_assoc, Symbol.vars_exports,
    Symbol.funcs_exports, Symbol.nfuncs_exports]

end exports

end entries

section add

/-- A symbol is added when its name is public and not there yet. -/
def insertEntry (entries : List Entry) (e : Entry) : List Entry :=
  if IsAccess e.name ∧ e.name ∉ entries.map Entry.name then entries ++ [e] else entries

theorem foldl_insertEntry (entries l : List Entry) : l.foldl insertEntry entries =
    entries ++ firsts Entry.name (entries.map Entry.name) (l.filter fun e => IsAccess e.name) := by
  induction l generalizing entries with
  | nil => simp [firsts]
  | cons e l ih =>
    rw [List.foldl_cons, ih, insertEntry]
    cases haccess : IsAccess e.name with
    | false => simp [haccess]
    | true =>
      rw [List.filter_cons, if_pos haccess, firsts]
      by_cases hmem : e.name ∈ entries.map Entry.name
      · rw [if_neg (fun h => h.2 hmem), if_pos hmem]
      · rw [if_pos ⟨rfl, hmem⟩, if_neg hmem, List.append_assoc, List.map_append]
        rfl

variable {stbl : STable parser.Symbol}

theorem STable_Get_isSome_iff {name : CString} :
    (STable_Get stbl name).isSome = true ↔ name ∈ (stbl.symbols.map entry).map Entry.name := by
  simp [STable_Get, entry]

theorem insert_entries (sym : parser.Symbol) :
    ((stbl.insert sym).getD stbl).symbols.map entry =
      if sym.name ∈ (stbl.symbols.map entry).map Entry.name then stbl.symbols.map entry
      else stbl.symbols.map entry ++ [entry sym] := by
  unfold STable.insert
  by_cases hmem : sym.name ∈ (stbl.symbols.map entry).map Entry.name
  · rw [if_pos (STable_Get_isSome_iff.mpr hmem), if_pos hmem]
    rfl
  · rw [if_neg (fun h => hmem (STable_Get_isSome_iff.mp h)), if_neg hmem]
    simp [STable.append]

theorem insert_insertEntry {sym : parser.Symbol} (haccess : IsAccess sym.name = true) :
    ((stbl.insert sym).getD stbl).symbols.map entry =
      insertEntry (stbl.symbols.map entry) (entry sym) := by
  rw [insert_entries, insertEntry]
  by_cases hmem : sym.name ∈ (stbl.symbols.map entry).map Entry.name
  · rw [if_pos hmem, if_neg (fun h => h.2 hmem)]
  · rw [if_neg hmem, if_pos ⟨haccess, hmem⟩]

theorem insertEntry_private {entries : List Entry} {e : Entry} (h : IsAccess e.name = false) :
    insertEntry entries e = entries := if_neg fun hand => by
  rw [h] at hand
  exact absurd hand.1 (by decide)

/-- A variable is added with the next index. -/
theorem addVar_symbols (name : CString) (desc : Option TypeDesc)
    (data : Nat → SymData parser.Symbol) : ((stbl.addVar name desc data).getD stbl).symbols =
      ((stbl.insert (Symbol_New name desc (data stbl.varindex))).getD stbl).symbols := by
  unfold STable.addVar
  cases stbl.insert (Symbol_New name desc (data stbl.varindex)) with
  | none => rfl
  | some stbl' => rfl

theorem get_var_fn_entries (stbl : STable parser.Symbol) (var : VarInfo) :
    (__get_var_fn stbl var).symbols.map entry =
      insertEntry (stbl.symbols.map entry) (varEntry var) := by
  unfold __get_var_fn
  cases haccess : IsAccess var.name with
  | false => rw [if_neg (by decide), insertEntry_private haccess]
  | true =>
    rw [if_pos rfl, varEntry]
    split
    · rw [STable_Add_Var, addVar_symbols]
      exact insert_insertEntry haccess
    · rw [STable_Add_Const, addVar_symbols]
      exact insert_insertEntry haccess

theorem get_func_fn_entries {kind : SymKind} {data : SymData parser.Symbol}
    {add : STable parser.Symbol → CString → TypeDesc → Option (STable parser.Symbol)}
    (hadd : ∀ stbl name proto, add stbl name proto =
      STable.insert stbl (Symbol_New name (some proto) data)) (hkind : data.kind = kind)
    (stbl : STable parser.Symbol) (func : FuncInfo) :
    (__get_func_fn add stbl func).symbols.map entry =
      insertEntry (stbl.symbols.map entry) (funcEntry kind func) := by
  unfold __get_func_fn
  cases haccess : IsAccess func.name with
  | false => rw [if_neg (by decide), insertEntry_private haccess]
  | true =>
    rw [if_pos rfl, hadd, funcEntry, ← hkind]
    exact insert_insertEntry haccess

theorem foldl_entries {α : Type} {f : STable parser.Symbol → α → STable parser.Symbol}
    {g : α → Entry} (h : ∀ stbl x, (f stbl x).symbols.map entry =
      insertEntry (stbl.symbols.map entry) (g x)) (l : List α) (stbl : STable parser.Symbol) :
    (l.foldl f stbl).symbols.map entry =
      (l.map g).foldl insertEntry (stbl.symbols.map entry) := by
  induction l generalizing stbl with
  | nil => rfl
  | cons x l ih => rw [List.foldl_cons, ih, h, List.map_cons, List.foldl_cons]

end add

section file

variable {image image' : KImage} {name : Option CString}

/-- Strings and type lists can be read, whatever code there is. -/
theorem readable_of_ne {T : Table} (hT : Sound T) {type : ItemKind} (hcode : type ≠ .ITEM_CODE) :
    ∀ item ∈ T.items type, Readable type item := by
  intro item hitem hisize
  obtain ⟨n, hn⟩ := List.mem_iff_getElem?.mp hitem
  have hget : Get T type n = some item := by
    rw [Get, AtomTable_Get_of_nonneg, hn]
  cases type with
  | ITEM_STRING =>
    obtain ⟨s, rfl⟩ := hT.string n item hget
    simp [item_array, StringItem_New]
  | ITEM_TYPELIST =>
    obtain ⟨l, hne, hl⟩ := hT.typelist hget
    obtain ⟨t, l, rfl⟩ := List.exists_cons_of_ne_nil hne
    obtain ⟨index, hindex, i, rest, rfl, _⟩ := (holdsList_of_ne hne).mp hl
    rw [hget] at hindex
    cases hindex
    simp [item_array, koala.bytes.words_cons, koala.bytes.le32]
  | ITEM_CODE => exact absurd rfl hcode
  | _ => cases hisize

/-- A finished image is read without the items that are not loaded. -/
theorem read_part (addr : Nat → Nat) (h : Unfinished image) (hT : Sound image.table) (hf : Finished image image')
    (hinit : image.header = init_header name) (hsize : fileSize image ≤ INT_MAX)
    (hfits : ∀ type, ∀ item ∈ image'.table.items type, ItemFits type item) :
    ∃ back, KImage_Read_File (LOAD NOT_LOAD_ITEMS) addr (KImage_Write_File image') =
      .ok (some back) ∧ back.header = image'.header ∧ SameRead image.table back.table := by
  obtain ⟨R, hwf, hempty, -, hread⟩ := hf.read h hinit hsize hfits
  have hmap : ∀ type ∈ used image'.table ItemKind.all.tail, type ≠ .ITEM_MAP := by
    rintro type htype rfl
    exact absurd (mem_used.mp htype).1 (by decide)
  have hnodup := nodup_used image'.table
  have hnil : ∀ type ∈ used image'.table ItemKind.all.tail, R.items type = [] :=
    fun type htype => hempty type (hmap type htype)
  obtain ⟨R', hload⟩ := @load_kinds_total (LOAD NOT_LOAD_ITEMS) addr image'.table _ _ hnodup hnil
    hwf (fun type htype hl => by
      have hcode : type ≠ .ITEM_CODE := by
        rintro rfl
        exact absurd hl (by decide)
      have hconst : type ≠ .ITEM_CONST := by
        rintro rfl
        exact absurd hl (by decide)
      rw [hf.same type (hmap type htype)]
      refine ⟨readable_of_ne hT hcode, fun hunique n => ?_⟩
      rw [copies_of_ne hconst]
      exact differing_items hT.wf hunique hconst) 0
  obtain ⟨-, hloaded, hrest⟩ := load_kinds_ok hnodup hnil hwf hload
  refine ⟨⟨image'.header, R'⟩, ?_, rfl, ?_⟩
  · rw [hread, hf.kinds h, hload, ok_bind]
  · have hitems : ∀ type, LOAD NOT_LOAD_ITEMS type = true → type ≠ .ITEM_MAP →
        type ≠ .ITEM_CONST → R'.items type = image.table.items type := by
      intro type hl hkind hconst
      by_cases hused : type ∈ used image'.table ItemKind.all.tail
      · obtain ⟨⟨n, hcopies⟩, -⟩ := hloaded type hused hl
        rw [hcopies, copies_of_ne hconst, hf.same type hkind]
      · rw [hrest type (Or.inl hused), hempty type hkind, ← hf.same type hkind]
        by_contra hne
        refine hused (mem_used.mpr ⟨?_, fun heq => hne heq.symm⟩)
        exact (List.mem_cons.mp type.mem_all).resolve_left hkind
    refine ⟨⟨?_, ?_, ?_, ?_⟩, ?_, ?_, ?_⟩ <;> exact hitems _ (by decide) (by decide) (by decide)

end file

section imported

theorem fitsInt_of_below {T : Table} (hsize : ∀ type, AtomTable_Size T type < 2 ^ 31) {a : Add}
    (h : Below T a) : a.FitsInt := by
  cases a with
  | LocVar name desc pos index =>
    obtain ⟨type, n, rfl, hle⟩ := h
    exact FitsInt.of_nat (Nat.lt_of_le_of_lt hle (hsize type))
  | _ => trivial

/-- A name that fits the field of the header is read back. -/
theorem header_pkgname {pkgname : CString} (h : pkgname.bytes.length < PKG_NAME_MAX) :
    CString.ofData (init_header (some pkgname)).pkgname = pkgname := by
  have hmax : PKG_NAME_MAX = 64 := rfl
  have htake : pkgname.bytes.take (PKG_NAME_MAX - 1) = pkgname.bytes :=
    List.take_of_length_le (by omega)
  obtain ⟨n, hn⟩ : ∃ n, PKG_NAME_MAX - pkgname.bytes.length = n + 1 :=
    Nat.exists_eq_succ_of_ne_zero (by omega)
  rw [init_header, strncpy, htake, hn]
  exact CString.ofData_append_nul pkgname _

/-- Only the names and types of functions are looked at. -/
theorem foldl_get_func_fn
    {add : STable parser.Symbol → CString → TypeDesc → Option (STable parser.Symbol)}
    {funcs funcs' : List FuncInfo}
    (h : funcs'.map (fun f => (f.name, f.desc)) = funcs.map fun f => (f.name, f.desc))
    (table : STable parser.Symbol) :
    funcs'.foldl (__get_func_fn add) table = funcs.foldl (__get_func_fn add) table := by
  have hmap : ∀ l : List FuncInfo, l.foldl (__get_func_fn add) table =
      (l.map fun f => (f.name, f.desc)).foldl
        (fun table f => __get_func_fn add table ⟨f.1, f.2, none⟩) table := by
    intro l
    rw [List.foldl_map]
    rfl
  rw [hmap, hmap, h]

theorem visible_congr {l l' : List Entry}
    (h : l.map (fun e => (e.name, e.kind)) = l'.map fun e => (e.name, e.kind)) :
    (visible l).map (fun e => (e.name, e.kind)) = (visible l').map fun e => (e.name, e.kind) := by
  have hvisible : ∀ l : List Entry, (visible l).map (fun e => (e.name, e.kind)) =
      firsts Prod.fst [] ((l.map fun e => (e.name, e.kind)).filter fun e => IsAccess e.1) := by
    intro l
    rw [List.filter_map, firsts_map]
    rfl
  rw [hvisible, hvisible, h]

/-- The symbols that are made of what the getters of an image report. -/
def imported (adds : List Add) : STable parser.Symbol :=
  let stbl := (adds.flatMap Add.var).foldl __get_var_fn STable_New
  let stbl := (adds.flatMap Add.func).foldl (__get_func_fn STable_Add_Func) stbl
  (adds.flatMap Add.nfunc).foldl (__get_func_fn STable_Add_NFunc) stbl

theorem imported_entries (adds : List Add) :
    (imported adds).symbols.map entry = visible (reported adds) := by
  have hfunc : ∀ stbl func, (__get_func_fn STable_Add_Func stbl func).symbols.map entry =
      insertEntry (stbl.symbols.map entry) (funcEntry .SYM_FUNC func) :=
    get_func_fn_entries (fun _ _ _ => rfl) rfl
  have hnfunc : ∀ stbl func, (__get_func_fn STable_Add_NFunc stbl func).symbols.map entry =
      insertEntry (stbl.symbols.map entry) (funcEntry .SYM_NFUNC func) :=
    get_func_fn_entries (fun _ _ _ => rfl) rfl
  rw [imported, foldl_entries hnfunc, foldl_entries hfunc, foldl_entries get_var_fn_entries,
    ← List.foldl_append, ← List.foldl_append, foldl_insertEntry, ← List.append_assoc]
  rfl

variable [Arith] {mem : Memory} {stbl : List Symbol} {pkgname : CString} {image : KImage}

/-- What is read from the file of a package. -/
theorem STable_From_Image_ok (hgen : Gen_Image mem stbl pkgname = .ok image)
    (hname : pkgname.bytes.length < PKG_NAME_MAX) :
    ∃ adds bound, adds.flatMap declared = stbl.flatMap Symbol.exports ∧
      ∀ fuel ≥ bound, ∀ addr, STable_From_Image fuel addr (KImage_Write_File image) =
        .ok (some (pkgname, imported (storedAll (held AtomTable_New) adds).1)) := by
  obtain ⟨info, hgens, hfinish⟩ := bind_eq_ok_iff.mp hgen
  obtain ⟨adds, hcalls, hdeclared, hbelow⟩ := symbols_gen_exports stbl sound_new hgens
  obtain ⟨mem', hrun⟩ := hcalls.run
  have hunfinished := KImage.run_unfinished hrun
  have hfinished := hunfinished.finish_ok hfinish
  have hsize := hunfinished.finish_iff.mp ⟨image, hfinish⟩
  obtain ⟨hinit, new, hrecords, hplaces⟩ := KImage.run_ok sound_new hrun
  have hinit' : info.image.header = init_header (some pkgname) := hinit
  have hfits := hfinished.fits hunfinished hsize fun type htype => KImage.run_fits hrun
    (fun a ha => fitsInt_of_below (size_lt hunfinished hsize) (hbelow a ha)) hsize htype
  obtain ⟨bound, hbound⟩ := exists_depth_bound (storedAll (held AtomTable_New) adds).1
  refine ⟨adds, bound, hdeclared, fun fuel hfuel addr => ?_⟩
  obtain ⟨back, hread, hheader, hsame⟩ := read_part addr hunfinished hplaces.sound
    hfinished hinit' hsize hfits
  have hreports := hsame.reports
  have hdepth := fun a ha => (hbound a ha).trans hfuel
  have hvars := (hreports.vars fuel).trans (KImage_Get_Vars_ok hrecords hplaces hdepth)
  have hnfuncs := (hreports.nfuncs fuel).trans (KImage_Get_NFuncs_ok hrecords hplaces hdepth)
  have hfuncs := hreports.funcs fuel
  rw [KImage_Get_Funcs_ok hrecords hplaces hdepth] at hfuncs
  obtain ⟨funcs, hgetfuncs, hsamefuncs⟩ : ∃ funcs, KImage_Get_Funcs fuel back = .ok funcs ∧
      funcs.map (fun f => (f.name, f.desc)) =
        ((storedAll (held AtomTable_New) adds).1.flatMap Add.func).map
          fun f => (f.name, f.desc) := by
    cases hget : KImage_Get_Funcs fuel back with
    | error e =>
      rw [hget] at hfuncs
      cases hfuncs
    | ok funcs =>
      rw [hget] at hfuncs
      exact ⟨funcs, rfl, Except.ok.inj hfuncs⟩
  have hpkgname : CString.ofData back.header.pkgname = pkgname := by
    rw [hheader, hfinished.header, hinit']
    exact header_pkgname hname
  rw [STable_From_Image, hread, ok_bind]
  dsimp only
  rw [hvars, ok_bind, hgetfuncs, ok_bind, hnfuncs, ok_bind, foldl_get_func_fn hsamefuncs, hpkgname]
  rfl

/-- For every package that is compiled into an image: reading its file gives
exactly the public constants, variables, functions and native functions, those
of classes among them, each with its kind; and each with its type unless two
types were confused when they were stored. -/
theorem imports_exported (hgen : Gen_Image mem stbl pkgname = .ok image)
    (hname : pkgname.bytes.length < PKG_NAME_MAX) :
    ∃ bound table, (∀ fuel ≥ bound, ∀ addr,
        STable_From_Image fuel addr (KImage_Write_File image) = .ok (some (pkgname, table))) ∧
      (table.symbols.map entry).map (fun e => (e.name, e.kind)) =
        (exported stbl).map (fun e => (e.name, e.kind)) ∧
      (Unconfused stbl → table.symbols.map entry = exported stbl) := by
  obtain ⟨adds, bound, hdeclared, hread⟩ := STable_From_Image_ok hgen hname
  have hreported : reported adds =
      stbl.flatMap Symbol.vars ++ stbl.flatMap Symbol.funcs ++ stbl.flatMap Symbol.nfuncs := by
    rw [← reported_declared, hdeclared, reported_exports]
  refine ⟨bound, _, hread, ?_, fun hunconfused => ?_⟩
  · rw [imported_entries, exported, ← hreported]
    exact visible_congr (reported_stored _ adds)
  · rw [imported_entries, exported, ← hreported, ← reported_declared, ← storedAll_declared,
      hdeclared, hunconfused, ← hdeclared, reported_declared]

end imported

theorem A_nonul : (0 : UInt8) ∉ ['A'.toUInt8] := by decide

def name_A : CString := ⟨['A'.toUInt8], A_nonul⟩

/-- A variable, and a class whose native function has its name. -/
def shadowing : List Symbol :=
  [.member (.SYM_VAR name_A (some (.base .BASE_INT))),
    .SYM_CLASS name_A [] [.SYM_NFUNC name_A ⟨[], []⟩]]

theorem imports_exported_shadowing : ∃ image, Gen_Image .evenOdd shadowing name_A = .ok image ∧
    ∃ bound table, (∀ fuel ≥ bound, ∀ addr,
        STable_From_Image fuel addr (KImage_Write_File image) = .ok (some (name_A, table))) ∧
      (table.symbols.map entry).map (fun e => (e.name, e.kind)) = [(name_A, .SYM_VAR)] := by
  have hok : (Gen_Image .evenOdd shadowing name_A).isOk = true := by decide
  cases hgen : Gen_Image .evenOdd shadowing name_A with
  | error e =>
    rw [hgen] at hok
    cases hok
  | ok image =>
    obtain ⟨bound, table, hread, hkinds, -⟩ := imports_exported hgen (by decide)
    exact ⟨image, rfl, bound, table, hread, hkinds⟩

end koala.symbol
