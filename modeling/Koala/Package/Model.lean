import Koala.Image.Getters
import Koala.HashTable.Buckets
import Mathlib.Data.List.Nodup

open koala.image koala.typedesc koala.hashtable

namespace koala.package

set_option linter.style.nameCheck false

/-- A local variable of a code object; `offset` is its position. -/
structure LocVar where
  name : CString
  desc : TypeDesc
  offset : BitVec 32

structure CodeObject where
  name : CString
  proto : ProtoDesc
  codes : Option (List UInt8)
  locvec : List LocVar

inductive Object where
  | Integer (val : BitVec 64)
  | String (str : CString)

inductive Member where
  | CONST_KIND (desc : TypeDesc) (value : Object)
  | VAR_KIND (desc : TypeDesc) (offset : Nat)
  | FUNC_KIND (code : CodeObject)

structure MNode where
  name : CString
  member : Member

structure Package where
  name : CString
  consts : List Object
  nrvars : Nat
  mtbl : Buckets MNode

def m_hash_func (name : CString) : Nat := hash_string name

def m_equal_func (name1 name2 : CString) : Bool := name1 = name2

def Pkg_New (name : CString) : Package := ⟨name, [], 0, Buckets.init⟩

/-- `HashTable_Insert`, whose result the package ignores: a node whose name is
present is dropped. -/
def mtbl_insert (mtbl : Buckets MNode) (m : MNode) : Buckets MNode :=
  (mtbl.insert MNode.name m_hash_func m_equal_func m).getD mtbl

def Find_MNode (mtbl : Buckets MNode) (name : CString) : Option MNode :=
  mtbl.find MNode.name m_equal_func (m_hash_func name) name

/-- `OB_INCREF` reads the value. -/
def Pkg_Add_Const (pkg : Package) (name : CString) (desc : TypeDesc) :
    Option Object → Res Package
  | none => .error .null
  | some val => .ok { pkg with mtbl := mtbl_insert pkg.mtbl ⟨name, .CONST_KIND desc val⟩ }

def Pkg_Add_Var (pkg : Package) (name : CString) (desc : TypeDesc) : Package :=
  { pkg with
    mtbl := mtbl_insert pkg.mtbl ⟨name, .VAR_KIND desc pkg.nrvars⟩
    nrvars := pkg.nrvars + 1 }

def Pkg_Add_Func (pkg : Package) (code : CodeObject) : Package :=
  { pkg with mtbl := mtbl_insert pkg.mtbl ⟨code.name, .FUNC_KIND code⟩ }

/-- A float or a bool leaves the object uninitialised. -/
def getconstfunc : ConstData → Res Object
  | .value (.CONST_INT ival) => .ok (.Integer ival)
  | .value (.CONST_FLOAT _) => .error .uninitialized
  | .value (.CONST_BOOL _) => .error .uninitialized
  | .value (.CONST_STRING _) => .error .assertion
  | .value (.CONST_UCHAR _) => .error .assertion
  | .text data => .ok (.String data)

def load_consts (pkg : Package) (image : KImage) : Res Package := do
  let data ← KImage_Get_Consts image
  let consts ← data.mapM getconstfunc
  .ok { pkg with consts }

/-- A constant variable is added without a value. -/
def getvarfunc (pkg : Package) (var : VarInfo) : Res Package :=
  if var.konst ≠ 0 then Pkg_Add_Const pkg var.name var.desc none
  else .ok (Pkg_Add_Var pkg var.name var.desc)

def load_variables (fuel : Nat) (pkg : Package) (image : KImage) : Res Package := do
  let vars ← KImage_Get_Vars fuel image
  vars.foldlM getvarfunc pkg

/-- `__getlocvarfunc`: a local is added when its index is the function's. -/
def getlocvarfunc (index : Nat) (locvar : LocVarInfo) : Option LocVar :=
  if locvar.index = index then some ⟨locvar.name, locvar.desc, locvar.pos⟩ else none

/-- `__getfuncfn`: the code object is shared with the package, so the locals
that are added to it after `Pkg_Add_Func` are in the package too. -/
def getfuncfn (locvars : List LocVarInfo) (pkg : Package) (func : FuncInfo × Nat) : Package :=
  Pkg_Add_Func pkg ⟨func.1.name, func.1.desc, func.1.codes,
    locvars.filterMap (getlocvarfunc func.2)⟩

def load_functions (fuel : Nat) (pkg : Package) (image : KImage) : Res Package := do
  let funcs ← KImage_Get_Funcs fuel image
  -- every callback scans all locals
  let locvars ← if funcs = [] then .ok [] else KImage_Get_LocVars fuel image
  .ok (funcs.zipIdx.foldl (getfuncfn locvars) pkg)

def Pkg_From_Image (fuel : Nat) (image : KImage) : Res Package := do
  let pkg := Pkg_New (CString.ofData image.header.pkgname)
  let pkg ← load_consts pkg image
  let pkg ← load_variables fuel pkg image
  load_functions fuel pkg image

end koala.package

open koala.image koala.typedesc koala.hashtable

namespace koala.package

set_option linter.style.nameCheck false

abbrev TableWF (mtbl : Buckets MNode) : Prop := mtbl.WF MNode.name m_hash_func

theorem m_equal_func_eq_true {name1 name2 : CString} :
    m_equal_func name1 name2 = true ↔ name1 = name2 := by simp [m_equal_func]

theorem m_equal_func_eq_false {name1 name2 : CString} :
    m_equal_func name1 name2 = false ↔ name1 ≠ name2 := by simp [m_equal_func]

/-- A name is found exactly when some node has it. -/
theorem Find_MNode_eq_none_iff {mtbl : Buckets MNode} (h : TableWF mtbl) {name : CString} :
    Find_MNode mtbl name = none ↔ ∀ m ∈ mtbl.order, m.name ≠ name := by
  unfold Find_MNode
  rw [h.find_eq_none_iff fun m _ heq => by rw [m_equal_func_eq_true.mp heq]]
  simp only [m_equal_func_eq_false]

theorem Find_MNode_some {mtbl : Buckets MNode} (h : TableWF mtbl) {name : CString} {m : MNode}
    (hfind : Find_MNode mtbl name = some m) : m ∈ mtbl.order ∧ m.name = name := by
  obtain ⟨hmem, heq⟩ := h.find_some hfind
  exact ⟨hmem, m_equal_func_eq_true.mp heq⟩

/-- With distinct names, a node is found by its name. -/
theorem Find_MNode_of_mem {mtbl : Buckets MNode} (h : TableWF mtbl)
    (hnodup : (mtbl.order.map MNode.name).Nodup) {m : MNode} (hm : m ∈ mtbl.order) :
    Find_MNode mtbl m.name = some m := by
  cases hfind : Find_MNode mtbl m.name with
  | none => exact absurd rfl ((Find_MNode_eq_none_iff h).mp hfind m hm)
  | some m' =>
    obtain ⟨hm', hname⟩ := Find_MNode_some h hfind
    rw [List.inj_on_of_nodup_map hnodup hm' hm hname]

/-- Inserting a node drops it when its name is present and appends it otherwise. -/
theorem mtbl_insert_spec {mtbl : Buckets MNode} (h : TableWF mtbl) (m : MNode) :
    TableWF (mtbl_insert mtbl m) ∧ (mtbl_insert mtbl m).order =
      if m.name ∈ mtbl.order.map MNode.name then mtbl.order else mtbl.order ++ [m] := by
  have hnone : (mtbl.find MNode.name m_equal_func (m_hash_func m.name) m.name).isSome = true ↔
      m.name ∈ mtbl.order.map MNode.name := by
    rw [Option.isSome_iff_ne_none, ne_eq, show mtbl.find MNode.name m_equal_func
      (m_hash_func m.name) m.name = Find_MNode mtbl m.name from rfl, Find_MNode_eq_none_iff h]
    simp
  unfold mtbl_insert
  cases hinsert : mtbl.insert MNode.name m_hash_func m_equal_func m with
  | none =>
    rw [Buckets.insert_eq_none_iff, hnone] at hinsert
    rw [if_pos hinsert]
    exact ⟨h, rfl⟩
  | some mtbl' =>
    obtain ⟨hfind, horder, hwf⟩ := h.insert hinsert
    have hnot : m.name ∉ mtbl.order.map MNode.name := by
      rw [← hnone, hfind]
      simp
    rw [if_neg hnot]
    exact ⟨hwf, horder⟩

/-- The elements whose key is neither in `seen` nor the key of an earlier one. -/
def firsts {α : Type} (key : α → CString) : List CString → List α → List α
  | _, [] => []
  | seen, x :: l =>
    if key x ∈ seen then firsts key seen l else x :: firsts key (seen ++ [key x]) l

theorem firsts_map {α β : Type} {key : β → CString} (f : α → β) (seen : List CString)
    (l : List α) : firsts key seen (l.map f) = (firsts (fun x => key (f x)) seen l).map f := by
  induction l generalizing seen with
  | nil => rfl
  | cons x l ih =>
    rw [List.map_cons, firsts, firsts]
    split
    · exact ih seen
    · rw [ih, List.map_cons]

theorem firsts_nodup {α : Type} {key : α → CString} {seen : List CString} {l : List α}
    (h : seen.Nodup) : (seen ++ (firsts key seen l).map key).Nodup := by
  induction l generalizing seen with
  | nil => simpa [firsts] using h
  | cons x l ih =>
    rw [firsts]
    split
    · exact ih h
    · next hnot =>
      rw [List.map_cons, List.append_cons]
      exact ih (List.nodup_append.mpr ⟨h, by simp, by
        intro a ha b hb
        rw [List.mem_singleton.mp hb]
        rintro rfl
        exact hnot ha⟩)

/-- Inserting nodes one by one keeps the first of every name. -/
theorem foldl_mtbl_insert {mtbl : Buckets MNode} (h : TableWF mtbl) (l : List MNode) :
    TableWF (l.foldl mtbl_insert mtbl) ∧ (l.foldl mtbl_insert mtbl).order =
      mtbl.order ++ firsts MNode.name (mtbl.order.map MNode.name) l := by
  induction l generalizing mtbl with
  | nil => exact ⟨h, by simp [firsts]⟩
  | cons m l ih =>
    obtain ⟨hwf, horder⟩ := mtbl_insert_spec h m
    obtain ⟨hwf', horder'⟩ := ih hwf
    refine ⟨hwf', ?_⟩
    rw [List.foldl_cons, horder', firsts, horder]
    split
    · rfl
    · rw [List.map_append, List.append_assoc]
      rfl

end koala.package

open koala.atomtable koala.image koala.typedesc koala.typedesc.Store

namespace koala.package

set_option linter.style.nameCheck false

/-- The function or method that a local belongs to: the `k`th that was added. -/
inductive Owner where
  | func (k : Nat)
  | method (k : Nat)
  deriving DecidableEq

def Owner.number : Owner → Nat
  | .func k => k
  | .method k => k

/-- The calls that record code. A local names its owner, whose index it passes. -/
inductive Call where
  | Func (name : CString) (proto : ProtoDesc) (codes : List UInt8)
  | Method (klazz name : CString) (proto : ProtoDesc) (codes : List UInt8)
  | LocVar (owner : Owner) (name : CString) (desc : TypeDesc) (pos : BitVec 32)

/-- The indices that the calls so far returned. -/
structure Returned where
  funcs : List Int
  methods : List Int

def Returned.index (returned : Returned) : Owner → Option Int
  | .func k => returned.funcs[k]?
  | .method k => returned.methods[k]?

/-- A local is passed the index that the call of its owner returned. -/
def Call.step (image : KImage) (returned : Returned) : Call → Res (KImage × Returned)
  | .Func name proto codes => do
    let (index, image) ← KImage_Add_Func image name proto codes
    .ok (image, { returned with funcs := returned.funcs ++ [index] })
  | .Method klazz name proto codes => do
    let (index, image) ← KImage_Add_Method image klazz name proto codes
    .ok (image, { returned with methods := returned.methods ++ [index] })
  | .LocVar owner name desc pos =>
    match returned.index owner with
    | some index => do
      let image ← KImage_Add_LocVar image name desc pos index
      .ok (image, returned)
    -- no call has returned the index yet
    | none => .error .uninitialized

def Call.run (image : KImage) (returned : Returned) : List Call → Res (KImage × Returned)
  | [] => .ok (image, returned)
  | c :: calls => do
    let (image, returned) ← c.step image returned
    Call.run image returned calls

def Call.build (pkgname : Option CString) (calls : List Call) : Res (KImage × Returned) :=
  Call.run (KImage_New pkgname) ⟨[], []⟩ calls

theorem Call.run_append {image image' : KImage} {returned returned' : Returned}
    {calls calls' : List Call}
    (h : Call.run image returned (calls ++ calls') = .ok (image', returned')) :
    ∃ image₁ returned₁, Call.run image returned calls = .ok (image₁, returned₁) ∧
      Call.run image₁ returned₁ calls' = .ok (image', returned') := by
  induction calls generalizing image returned with
  | nil => exact ⟨image, returned, rfl, h⟩
  | cons c calls ih =>
    obtain ⟨⟨image₂, returned₂⟩, hstep, h⟩ := bind_eq_ok_iff.mp h
    obtain ⟨image₁, returned₁, hfirst, hrest⟩ := ih h
    refine ⟨image₁, returned₁, ?_, hrest⟩
    rw [Call.run, hstep, ok_bind]
    exact hfirst

/-- The call of `KImage_Add_*` when the owner's index is its number. -/
def Call.asAdd : Call → Add
  | .Func name proto codes => .Func name proto codes
  | .Method klazz name proto codes => .Method klazz name proto codes
  | .LocVar owner name desc pos => .LocVar name desc pos owner.number

/-- The calls returned the numbers of the functions and of the methods. -/
structure Numbered (T : Table) (returned : Returned) : Prop where
  funcs : returned.funcs = (List.range (AtomTable_Size T .ITEM_FUNC)).map Nat.cast
  methods : returned.methods = (List.range (AtomTable_Size T .ITEM_METHOD)).map Nat.cast

theorem numbered_new : Numbered AtomTable_New ⟨[], []⟩ := ⟨rfl, rfl⟩

theorem getElem?_numbers {n k : Nat} {index : Int}
    (h : ((List.range n).map (Nat.cast : Nat → Int))[k]? = some index) : index = k := by
  rw [List.getElem?_map, Option.map_eq_some_iff] at h
  obtain ⟨m, hm, rfl⟩ := h
  obtain ⟨_, heq⟩ := List.getElem?_eq_some_iff.mp hm
  rw [← heq, List.getElem_range]

/-- The index of an owner is its number. -/
theorem Numbered.index_eq {T : Table} {returned : Returned} (h : Numbered T returned)
    {owner : Owner} {index : Int} (hindex : returned.index owner = some index) :
    index = owner.number := by
  cases owner with
  | func k =>
    rw [Returned.index, h.funcs] at hindex
    exact getElem?_numbers hindex
  | method k =>
    rw [Returned.index, h.methods] at hindex
    exact getElem?_numbers hindex

theorem numbers_succ {n m : Nat} (h : m = n + 1) :
    ((List.range n).map (Nat.cast : Nat → Int)) ++ [(n : Int)] =
      (List.range m).map Nat.cast := by
  rw [h, List.range_succ, List.map_append]
  rfl

end koala.package

namespace koala.image

/-- A call makes the vectors longer by what it appends. -/
theorem Recorded.size_eq {image image' : KImage} {a : Add} {r : Option Int} {new : List Item}
    (h : Recorded image image' a r new) {type : ItemKind} (htype : type.ofTypes = false) :
    AtomTable_Size image'.table type =
      AtomTable_Size image.table type + (new.filterMap (Item.ofKind type)).length := by
  rw [AtomTable_Size, h.places.items type htype, List.length_append, AtomTable_Size]

end koala.image

namespace koala.package

/-- A call of a sequence is the call of `KImage_Add_*` with the owner's number. -/
theorem Call.step_ok {image image' : KImage} {returned returned' : Returned} {c : Call}
    (hT : Sound image.table) (hn : Numbered image.table returned)
    (h : c.step image returned = .ok (image', returned')) :
    (∀ mem n, ∃ r, image.add mem n c.asAdd = .ok (r, image')) ∧
      Numbered image'.table returned' := by
  cases c with
  | Func name proto codes =>
    obtain ⟨⟨index, image₁⟩, hadd, h⟩ := bind_eq_ok_iff.mp h
    cases h
    have hadd' : withindex (KImage_Add_Func image name proto codes) = .ok (some index, image') := by
      rw [hadd]
      rfl
    refine ⟨fun mem n => ⟨_, hadd'⟩, ?_⟩
    obtain ⟨new, hrec⟩ := KImage_Add_Func_ok hT hadd'
    obtain ⟨nameindex, protoindex, codeindex, rfl, -⟩ := hrec.records
    have hindex : index = AtomTable_Size image.table .ITEM_FUNC := Option.some.inj hrec.returns
    refine ⟨?_, ?_⟩
    · rw [hn.funcs, hindex]
      exact numbers_succ (hrec.size_eq rfl)
    · rw [hn.methods, hrec.size_eq rfl]
      rfl
  | Method klazz name proto codes =>
    obtain ⟨⟨index, image₁⟩, hadd, h⟩ := bind_eq_ok_iff.mp h
    cases h
    have hadd' : withindex (KImage_Add_Method image klazz name proto codes) =
        .ok (some index, image') := by
      rw [hadd]
      rfl
    refine ⟨fun mem n => ⟨_, hadd'⟩, ?_⟩
    obtain ⟨new, hrec⟩ := KImage_Add_Method_ok hT hadd'
    obtain ⟨classindex, nameindex, protoindex, codeindex, rfl, -⟩ := hrec.records
    have hindex : index = AtomTable_Size image.table .ITEM_METHOD :=
      Option.some.inj hrec.returns
    refine ⟨?_, ?_⟩
    · rw [hn.funcs, hrec.size_eq rfl]
      rfl
    · rw [hn.methods, hindex]
      exact numbers_succ (hrec.size_eq rfl)
  | LocVar owner name desc pos =>
    rw [Call.step] at h
    split at h
    · next index hindex =>
      obtain ⟨image₁, hadd, h⟩ := bind_eq_ok_iff.mp h
      cases h
      rw [hn.index_eq hindex] at hadd
      have hadd' : noindex (KImage_Add_LocVar image name desc pos owner.number) =
          .ok (none, image') := by
        rw [hadd]
        rfl
      refine ⟨fun mem n => ⟨_, hadd'⟩, ?_⟩
      obtain ⟨new, hrec⟩ := KImage_Add_LocVar_ok hT hadd'
      obtain ⟨nameindex, typeindex, rfl, -⟩ := hrec.records
      refine ⟨?_, ?_⟩
      · rw [hn.funcs, hrec.size_eq rfl]
        rfl
      · rw [hn.methods, hrec.size_eq rfl]
        rfl
    · cases h

/-- A sequence of calls is a run of the image. -/
theorem Call.run_ok (mem : Memory) (n : Nat) {image image' : KImage}
    {returned returned' : Returned} {calls : List Call} (hT : Sound image.table)
    (hn : Numbered image.table returned)
    (h : Call.run image returned calls = .ok (image', returned')) :
    KImage.run mem n image (calls.map Call.asAdd) = .ok image' ∧
      Numbered image'.table returned' := by
  induction calls generalizing n image returned with
  | nil =>
    cases h
    exact ⟨rfl, hn⟩
  | cons c calls ih =>
    obtain ⟨⟨image₁, returned₁⟩, hstep, h⟩ := bind_eq_ok_iff.mp h
    obtain ⟨hadd, hn₁⟩ := Call.step_ok hT hn hstep
    obtain ⟨r, hadd⟩ := hadd mem n
    obtain ⟨_, hrec⟩ := KImage.add_ok hT hadd
    obtain ⟨hrun, hn'⟩ := ih (n + 1) hrec.places.sound hn₁ h
    refine ⟨?_, hn'⟩
    rw [List.map_cons, KImage.run, hadd, ok_bind]
    exact hrun

end koala.package
