import Koala.Codegen.Model
import Koala.Image.Partial
import Koala.Package.Model

open koala.atomtable koala.image koala.parser koala.typedesc

namespace koala.symbol

set_option linter.style.nameCheck false

/-- A symbol without a table of its own. -/
inductive Member where
  | SYM_CONST (name : CString) (desc : Option TypeDesc)
  | SYM_VAR (name : CString) (desc : Option TypeDesc)
  | SYM_FUNC (name : CString) (desc : ProtoDesc) (locvec : List LocVar)
      (code : Option codegen.CodeBlock)
  | SYM_IFUNC (name : CString) (desc : ProtoDesc)
  | SYM_NFUNC (name : CString) (desc : ProtoDesc)

/-- A symbol of a package. A table is the list of its symbols in the order in
which `STable_Visit` meets them. -/
inductive Symbol where
  | member (m : Member)
  | SYM_CLASS (name : CString) (supers : List TypeDesc) (stbl : List Member)
  | SYM_TRAIT (name : CString) (supers : List TypeDesc) (stbl : List Member)

section gen

variable [Arith] (mem : Memory)

/-- An image to which `n` calls were made. -/
structure Gen where
  n : Nat
  image : KImage

def Gen.add (info : Gen) (a : Add) : Res (Option Int × Gen) := do
  let r ← info.image.add mem info.n a
  .ok (r.1, ⟨info.n + 1, r.2⟩)

/-- A call whose result is not looked at. -/
def Gen.add_void (info : Gen) (a : Add) : Res Gen := (info.add mem a).map Prod.snd

def __add_locvar (index : Int) : List LocVar → Gen → Res Gen
  | [], info => .ok info
  | var :: vec, info => do
    let desc ← image.deref var.desc
    let info ← info.add_void mem (.LocVar var.name desc (BitVec.ofNat 32 var.index) index)
    __add_locvar index vec info

def __const_gen (classname : Option CString) (name : CString) (desc : Option TypeDesc)
    (info : Gen) : Res Gen := do
  assert (classname = none)
  let desc ← image.deref desc
  info.add_void mem (.Var name desc 1)

def __var_gen (classname : Option CString) (name : CString) (desc : Option TypeDesc)
    (info : Gen) : Res Gen := do
  let desc ← image.deref desc
  match classname with
  | some klass => info.add_void mem (.Field klass name desc)
  | none => info.add_void mem (.Var name desc 0)

/-- Every instruction may make a call. -/
def Gen.code (info : Gen) (code : Option codegen.CodeBlock) : Res (List UInt8 × Gen) := do
  let r ← codegen.CodeBlock_To_RawCode mem info.n info.image code
  .ok (r.2.1.take r.2.2, ⟨info.n + (code.elim 0 fun b => b.insts.length), r.1⟩)

def __func_gen (classname : Option CString) (name : CString) (desc : ProtoDesc)
    (locvec : List LocVar) (code : Option codegen.CodeBlock) (info : Gen) : Res Gen := do
  let r ← info.code mem code
  let a : Add := match classname with
    | some klass => .Method klass name desc r.1
    | none => .Func name desc r.1
  let r ← r.2.add mem a
  let index ← image.deref r.1
  __add_locvar mem index locvec r.2

/-- An interface function without a class would be given a null name. -/
def __ifunc_gen (classname : Option CString) (name : CString) (desc : ProtoDesc) (info : Gen) :
    Res Gen := do
  let klass ← image.deref classname
  info.add_void mem (.IMeth klass name desc)

def __nfunc_gen (classname : Option CString) (name : CString) (desc : ProtoDesc) (info : Gen) :
    Res Gen := info.add_void mem (.NFunc classname name desc)

/-- `__gen_image_func`, which looks the kind up in `symops`. -/
def Member.gen (classname : Option CString) : Member → Gen → Res Gen
  | .SYM_CONST name desc => __const_gen mem classname name desc
  | .SYM_VAR name desc => __var_gen mem classname name desc
  | .SYM_FUNC name desc locvec code => __func_gen mem classname name desc locvec code
  | .SYM_IFUNC name desc => __ifunc_gen mem classname name desc
  | .SYM_NFUNC name desc => __nfunc_gen mem classname name desc

/-- `STable_Visit` over the table of a class or a trait. -/
def members_gen (classname : Option CString) : List Member → Gen → Res Gen
  | [], info => .ok info
  | m :: stbl, info => do
    let info ← m.gen mem classname info
    members_gen classname stbl info

def __class_gen (name : CString) (supers : List TypeDesc) (stbl : List Member) (info : Gen) :
    Res Gen := do
  let info ← info.add_void mem (.Class name supers)
  members_gen mem (some name) stbl info

def __trait_gen (name : CString) (supers : List TypeDesc) (stbl : List Member) (info : Gen) :
    Res Gen := do
  let info ← info.add_void mem (.Trait name supers)
  members_gen mem (some name) stbl info

def Symbol.gen : Symbol → Gen → Res Gen
  | .member m => m.gen mem none
  | .SYM_CLASS name supers stbl => __class_gen mem name supers stbl
  | .SYM_TRAIT name supers stbl => __trait_gen mem name supers stbl

/-- `STable_Visit` over the table of the package. -/
def symbols_gen : List Symbol → Gen → Res Gen
  | [], info => .ok info
  | sym :: stbl, info => do
    let info ← sym.gen mem info
    symbols_gen stbl info

def Gen_Image (stbl : List Symbol) (pkgname : CString) : Res KImage := do
  let info ← symbols_gen mem stbl ⟨0, KImage_New (some pkgname)⟩
  KImage_Finish info.image

end gen

section imports

/-- `isupper(name[0])` in the C locale. -/
def IsAccess (name : CString) : Bool :=
  match name.bytes with
  | [] => false
  | c :: _ => 'A'.toUInt8 ≤ c ∧ c ≤ 'Z'.toUInt8

/-- A symbol whose name is there already is not added. -/
def __get_var_fn (stbl : STable parser.Symbol) (var : VarInfo) : STable parser.Symbol :=
  if IsAccess var.name then
    if var.konst = 0 then (STable_Add_Var stbl var.name (some var.desc)).getD stbl
    else (STable_Add_Const stbl var.name (some var.desc)).getD stbl
  else stbl

/-- The callback for functions and native functions, which adds them with `add`. -/
def __get_func_fn (add : STable parser.Symbol → CString → TypeDesc → Option (STable parser.Symbol))
    (stbl : STable parser.Symbol) (func : FuncInfo) : STable parser.Symbol :=
  if IsAccess func.name then (add stbl func.name func.desc.desc).getD stbl else stbl

/-- The package name and the symbols that are read from a file. -/
def STable_From_Image (fuel : Nat) (addr : Nat → Nat) (file : List UInt8) :
    Res (Option (CString × STable parser.Symbol)) := do
  let image ← KImage_Read_File (LOAD NOT_LOAD_ITEMS) addr file
  match image with
  | none => .ok none
  | some image => do
    let vars ← KImage_Get_Vars fuel image
    let funcs ← KImage_Get_Funcs fuel image
    let nfuncs ← KImage_Get_NFuncs fuel image
    let stbl := vars.foldl __get_var_fn STable_New
    let stbl := funcs.foldl (__get_func_fn STable_Add_Func) stbl
    let stbl := nfuncs.foldl (__get_func_fn STable_Add_NFunc) stbl
    .ok (some (CString.ofData image.header.pkgname, stbl))

end imports

end koala.symbol
