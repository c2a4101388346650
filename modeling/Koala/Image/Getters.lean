import Koala.Image.Linked
import Koala.AtomTable.Exact

open koala.atomtable koala.typedesc koala.typedesc.Store

namespace koala.image

set_option linter.style.nameCheck false

/-- What `KImage_Get_Consts` passes to its callback: the value, and for a string
its text. -/
inductive ConstData where
  | value (val : ConstVal)
  | text (data : CString)

def KImage_Get_Consts (image : KImage) : Res (List ConstData) :=
  (image.table.items .ITEM_CONST).mapM fun item =>
    match item.val with
    | .CONST_STRING index => do
      let data ← stringData image.table index
      .ok (.text data)
    | val => .ok (.value val)

structure VarInfo where
  name : CString
  desc : TypeDesc
  konst : BitVec 32

def KImage_Get_Vars (fuel : Nat) (image : KImage) : Res (List VarInfo) :=
  (image.table.items .ITEM_VAR).mapM fun var => do
    let id ← stringData image.table var.nameindex
    let desc ← TypeItem_To_TypeDesc image.table fuel (Get image.table .ITEM_TYPE var.typeindex)
    .ok ⟨id, desc, var.konst⟩

structure LocVarInfo where
  name : CString
  desc : TypeDesc
  pos : BitVec 32
  index : Int

def KImage_Get_LocVars (fuel : Nat) (image : KImage) : Res (List LocVarInfo) :=
  (image.table.items .ITEM_LOCVAR).mapM fun locvar => do
    let str ← stringData image.table locvar.nameindex
    let desc ← TypeItem_To_TypeDesc image.table fuel
      (Get image.table .ITEM_TYPE locvar.typeindex)
    .ok ⟨str, desc, locvar.pos, locvar.index⟩

/-- `codes` is null when the function has no code item. -/
structure FuncInfo where
  name : CString
  desc : ProtoDesc
  codes : Option (List UInt8)

/-- The index passed to the callback is the position in the list. -/
def KImage_Get_Funcs (fuel : Nat) (image : KImage) : Res (List FuncInfo) :=
  (image.table.items .ITEM_FUNC).mapM fun funcitem => do
    let str ← stringData image.table funcitem.nameindex
    let code := Get image.table .ITEM_CODE funcitem.codeindex
    let desc ← ProtoItem_To_TypeDesc image.table fuel
      (Get image.table .ITEM_PROTO funcitem.protoindex)
    .ok ⟨str, desc, code.map fun code => code.codes⟩

/-- The class index of the items is not looked at. -/
def KImage_Get_NFuncs (fuel : Nat) (image : KImage) : Res (List FuncInfo) :=
  (image.table.items .ITEM_NFUNC).mapM fun nfuncitem => do
    let str ← stringData image.table nfuncitem.nameindex
    let desc ← ProtoItem_To_TypeDesc image.table fuel
      (Get image.table .ITEM_PROTO nfuncitem.protoindex)
    .ok ⟨str, desc, none⟩

theorem mapM_append_ok {α β : Type} {f : α → Res β} {l l' : List α} {r r' : List β}
    (h : l.mapM f = .ok r) (h' : l'.mapM f = .ok r') : (l ++ l').mapM f = .ok (r ++ r') := by
  rw [List.mapM_append, h, ok_bind, h', ok_bind]
  rfl

/-- A getter that reads the items of a record as `g` reads the call reads all
items as `g` reads all calls. -/
theorem mapM_of_records {T : Table} {β : Type} {type : ItemKind} {f : ItemData type → Res β}
    {g : Add → List β} {adds : List Add} {new : List (List Item)}
    (h : List.Forall₂ (Records T) adds new)
    (hf : ∀ a ∈ adds, ∀ items, Records T a items →
      (items.filterMap (Item.ofKind type)).mapM f = .ok (g a)) :
    (new.flatten.filterMap (Item.ofKind type)).mapM f = .ok (adds.flatMap g) := by
  induction h with
  | nil => rfl
  | @cons a items adds new ha _ ih =>
    rw [List.flatten_cons, List.filterMap_append, List.flatMap_cons]
    exact mapM_append_ok (hf a (by simp) items ha) (ih fun b hb => hf b (by simp [hb]))

/-- The depth of the types of a call. -/
def Add.depth : Add → Nat
  | .Var _ desc _ => desc.depth
  | .LocVar _ desc _ _ => desc.depth
  | .Func _ proto _ => proto.desc.depth
  | .NFunc _ _ proto => proto.desc.depth
  | _ => 0

theorem exists_depth_bound (adds : List Add) : ∃ fuel, ∀ a ∈ adds, a.depth ≤ fuel := by
  induction adds with
  | nil => exact ⟨0, by simp⟩
  | cons a adds ih =>
    obtain ⟨fuel, hfuel⟩ := ih
    refine ⟨max a.depth fuel, fun b hb => ?_⟩
    rcases List.mem_cons.mp hb with rfl | hb
    · exact Nat.le_max_left _ _
    · exact (hfuel b hb).trans (Nat.le_max_right _ _)

def Add.var : Add → List VarInfo
  | .Var name desc konst => [⟨name, desc, konst⟩]
  | _ => []

def Add.locvar : Add → List LocVarInfo
  | .LocVar name desc pos index => [⟨name, desc, pos, index⟩]
  | _ => []

def Add.func : Add → List FuncInfo
  | .Func name proto codes => [⟨name, proto, some codes⟩]
  | _ => []

def Add.nfunc : Add → List FuncInfo
  | .NFunc _ name proto => [⟨name, proto, none⟩]
  | _ => []

section getters

variable {image : KImage} {adds : List Add} {new : List (List Item)} {S : Store} {fuel : Nat}

theorem mapM_singleton_ok {α β : Type} {f : α → Res β} {x : α} {y : β} (h : f x = .ok y) :
    [x].mapM f = .ok [y] := by
  rw [List.mapM_cons, h, ok_bind]
  rfl

theorem KImage_Get_Vars_ok (hrecords : List.Forall₂ (Records image.table) adds new)
    (hplaces : Places AtomTable_New image.table S new.flatten)
    (hfuel : ∀ a ∈ adds, a.depth ≤ fuel) :
    KImage_Get_Vars fuel image = .ok (adds.flatMap Add.var) := by
  unfold KImage_Get_Vars
  rw [hplaces.items .ITEM_VAR rfl]
  refine mapM_of_records hrecords fun a ha items hrecord => ?_
  by_cases hkind : .ITEM_VAR ∈ a.kinds
  · cases a with
    | Var name desc konst =>
      obtain ⟨nameindex, typeindex, rfl, hname, htype⟩ := hrecord
      refine mapM_singleton_ok ?_
      dsimp only
      rw [stringData_of_holds hname, ok_bind,
        TypeItem_To_TypeDesc_of_holds htype (hfuel _ ha), ok_bind]
    | _ => simp [Add.kinds] at hkind
  · rw [hrecord.filterMap_eq_nil hkind]
    cases a with
    | Var => simp [Add.kinds] at hkind
    | _ => rfl

theorem KImage_Get_LocVars_ok (hrecords : List.Forall₂ (Records image.table) adds new)
    (hplaces : Places AtomTable_New image.table S new.flatten)
    (hfuel : ∀ a ∈ adds, a.depth ≤ fuel) :
    KImage_Get_LocVars fuel image = .ok (adds.flatMap Add.locvar) := by
  unfold KImage_Get_LocVars
  rw [hplaces.items .ITEM_LOCVAR rfl]
  refine mapM_of_records hrecords fun a ha items hrecord => ?_
  by_cases hkind : .ITEM_LOCVAR ∈ a.kinds
  · cases a with
    | LocVar name desc pos index =>
      obtain ⟨nameindex, typeindex, rfl, hname, htype⟩ := hrecord
      refine mapM_singleton_ok ?_
      dsimp only
      rw [stringData_of_holds hname, ok_bind,
        TypeItem_To_TypeDesc_of_holds htype (hfuel _ ha), ok_bind]
    | _ => simp [Add.kinds] at hkind
  · rw [hrecord.filterMap_eq_nil hkind]
    cases a with
    | LocVar => simp [Add.kinds] at hkind
    | _ => rfl

theorem KImage_Get_Funcs_ok (hrecords : List.Forall₂ (Records image.table) adds new)
    (hplaces : Places AtomTable_New image.table S new.flatten)
    (hfuel : ∀ a ∈ adds, a.depth ≤ fuel) :
    KImage_Get_Funcs fuel image = .ok (adds.flatMap Add.func) := by
  unfold KImage_Get_Funcs
  rw [hplaces.items .ITEM_FUNC rfl]
  refine mapM_of_records hrecords fun a ha items hrecord => ?_
  by_cases hkind : .ITEM_FUNC ∈ a.kinds
  · cases a with
    | Func name proto codes =>
      obtain ⟨nameindex, protoindex, codeindex, rfl, hname, hproto, hcode⟩ := hrecord
      refine mapM_singleton_ok ?_
      dsimp only
      rw [stringData_of_holds hname, ok_bind, ProtoItem_To_TypeDesc_of_holds hproto
        ((hfuel _ ha).trans (Nat.le_succ _)), ok_bind, hcode]
      rfl
    | _ => simp [Add.kinds] at hkind
  · rw [hrecord.filterMap_eq_nil hkind]
    cases a with
    | Func => simp [Add.kinds] at hkind
    | _ => rfl

theorem KImage_Get_NFuncs_ok (hrecords : List.Forall₂ (Records image.table) adds new)
    (hplaces : Places AtomTable_New image.table S new.flatten)
    (hfuel : ∀ a ∈ adds, a.depth ≤ fuel) :
    KImage_Get_NFuncs fuel image = .ok (adds.flatMap Add.nfunc) := by
  unfold KImage_Get_NFuncs
  rw [hplaces.items .ITEM_NFUNC rfl]
  refine mapM_of_records hrecords fun a ha items hrecord => ?_
  by_cases hkind : .ITEM_NFUNC ∈ a.kinds
  · cases a with
    | NFunc klazz name proto =>
      obtain ⟨classindex, nameindex, protoindex, rfl, _, hname, hproto⟩ := hrecord
      refine mapM_singleton_ok ?_
      dsimp only
      rw [stringData_of_holds hname, ok_bind, ProtoItem_To_TypeDesc_of_holds hproto
        ((hfuel _ ha).trans (Nat.le_succ _)), ok_bind]
    | _ => simp [Add.kinds] at hkind
  · rw [hrecord.filterMap_eq_nil hkind]
    cases a with
    | NFunc => simp [Add.kinds] at hkind
    | _ => rfl

end getters

end koala.image

open koala.atomtable koala.typedesc

namespace koala.image

set_option linter.style.nameCheck false

/-- The getters report the same names and types. The codes of functions are left
out. -/
structure SameReports (image image' : KImage) : Prop where
  vars : ∀ fuel, KImage_Get_Vars fuel image' = KImage_Get_Vars fuel image
  funcs : ∀ fuel, (KImage_Get_Funcs fuel image').map (List.map fun f => (f.name, f.desc)) =
    (KImage_Get_Funcs fuel image).map (List.map fun f => (f.name, f.desc))
  nfuncs : ∀ fuel, KImage_Get_NFuncs fuel image' = KImage_Get_NFuncs fuel image

variable {T T' : Table}

theorem Get_congr {type : ItemKind} (h : T'.items type = T.items type) :
    Get T' type = Get T type := funext fun index => AtomTable_Get_congr h index

theorem stringData_congr (h : T'.items .ITEM_STRING = T.items .ITEM_STRING) :
    stringData T' = stringData T := by
  funext index
  rw [stringData, stringData, Get_congr h]

/-- The tables that types are read from are the same. -/
structure SameTypes (T T' : Table) : Prop where
  strings : T'.items .ITEM_STRING = T.items .ITEM_STRING
  types : T'.items .ITEM_TYPE = T.items .ITEM_TYPE
  typelists : T'.items .ITEM_TYPELIST = T.items .ITEM_TYPELIST
  protos : T'.items .ITEM_PROTO = T.items .ITEM_PROTO

namespace SameTypes

theorem typelist_decode (h : SameTypes T T') (decode : Option TypeItem → Res TypeDesc) :
    typelist_decode T' decode = koala.image.typelist_decode T decode := by
  funext item
  cases item with
  | none => rfl
  | some item =>
    rw [koala.image.typelist_decode, koala.image.typelist_decode, Get_congr h.types]

theorem proto_decode (h : SameTypes T T') (decode : Option TypeItem → Res TypeDesc) :
    proto_decode T' decode = koala.image.proto_decode T decode := by
  funext item
  rw [koala.image.proto_decode, koala.image.proto_decode, Get_congr h.typelists,
    h.typelist_decode decode]

theorem typeItem (h : SameTypes T T') (fuel : Nat) :
    TypeItem_To_TypeDesc T' fuel = TypeItem_To_TypeDesc T fuel := by
  induction fuel with
  | zero => rfl
  | succ fuel ih =>
    funext item
    rw [TypeItem_To_TypeDesc, TypeItem_To_TypeDesc, ih, Get_congr h.types, Get_congr h.protos,
      stringData_congr h.strings, h.proto_decode]

theorem protoItem (h : SameTypes T T') (fuel : Nat) :
    ProtoItem_To_TypeDesc T' fuel = ProtoItem_To_TypeDesc T fuel := by
  funext item
  rw [ProtoItem_To_TypeDesc, ProtoItem_To_TypeDesc, h.typeItem, h.proto_decode]

end SameTypes

/-- The tables that the getters read are the same. -/
structure SameRead (T T' : Table) : Prop extends SameTypes T T' where
  vars : T'.items .ITEM_VAR = T.items .ITEM_VAR
  funcs : T'.items .ITEM_FUNC = T.items .ITEM_FUNC
  nfuncs : T'.items .ITEM_NFUNC = T.items .ITEM_NFUNC

theorem map_mapM {α β γ : Type} (f : α → Res β) (p : β → γ) (items : List α) :
    (items.mapM f).map (List.map p) = items.mapM fun item => (f item).map p := by
  induction items with
  | nil => rfl
  | cons item items ih =>
    rw [List.mapM_cons, List.mapM_cons, ← ih]
    cases f item with
    | error e => rfl
    | ok b =>
      cases items.mapM f with
      | error e => rfl
      | ok bs => rfl

theorem SameRead.reports {image image' : KImage} (h : SameRead image.table image'.table) :
    SameReports image image' where
  vars fuel := by
    unfold KImage_Get_Vars
    rw [h.vars, stringData_congr h.strings, h.typeItem, Get_congr h.types]
  funcs fuel := by
    unfold KImage_Get_Funcs
    rw [h.funcs, stringData_congr h.strings, h.protoItem, Get_congr h.protos]
    rw [map_mapM, map_mapM]
    congr 1
    funext item
    cases stringData image.table item.nameindex with
    | error e => rfl
    | ok name =>
      rw [ok_bind, ok_bind]
      dsimp only
      cases ProtoItem_To_TypeDesc image.table fuel
          (Get image.table .ITEM_PROTO item.protoindex) with
      | error e => rfl
      | ok desc => rfl
  nfuncs fuel := by
    unfold KImage_Get_NFuncs
    rw [h.nfuncs, stringData_congr h.strings, h.protoItem, Get_congr h.protos]

end koala.image
