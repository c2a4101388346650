import Koala.Package.Model

open koala.atomtable koala.image koala.typedesc koala.typedesc.Store

namespace koala.package

set_option linter.style.nameCheck false

def Call.func : Call → Option CString
  | .Func name _ _ => some name
  | _ => none

/-- The functions of the package with their numbers: of the functions of one
name, the first. -/
def functions (calls : List Call) : List (CString × Nat) :=
  firsts Prod.fst [] (calls.filterMap Call.func).zipIdx

def Call.locvar (owner : Owner) : Call → Option package.LocVar
  | .LocVar o name desc pos => if o = owner then some ⟨name, desc, pos⟩ else none
  | _ => none

/-- The locals recorded for an owner, in recording order. -/
def locals (owner : Owner) (calls : List Call) : List LocVar := calls.filterMap (Call.locvar owner)

/-- The package made from an image has exactly the functions of the calls, each
with exactly the locals recorded for it. -/
def KeepsLocals (image : KImage) (calls : List Call) : Prop :=
  ∃ bound, ∀ fuel, bound ≤ fuel → ∃ pkg, Pkg_From_Image fuel image = .ok pkg ∧
    (∀ name k, (name, k) ∈ functions calls → ∃ code,
      Find_MNode pkg.mtbl name = some ⟨name, .FUNC_KIND code⟩ ∧
      code.locvec = locals (.func k) calls) ∧
    ∀ name, (∀ k, (name, k) ∉ functions calls) → Find_MNode pkg.mtbl name = none

/-- No method with the number `k` has a local, and the type of every local of
the function `k` is stored as itself when its turn comes. -/
def Attributable (pkgname : Option CString) (calls : List Call) (k : Nat) : Prop :=
  (∀ name desc pos, .LocVar (.method k) name desc pos ∉ calls) ∧
  ∀ pre name desc pos post, calls = pre ++ .LocVar (.func k) name desc pos :: post →
    ∀ image returned, Call.build pkgname pre = .ok (image, returned) →
      desc.Supported ∧ Clear (held image.table) desc

section stored

/-- The locals that the package gives the function `k`, when the image held `S`
before the calls. -/
noncomputable def storedLocals (S : Store) (k : Nat) (calls : List Call) : List LocVar :=
  ((storedAll S (calls.map Call.asAdd)).1.flatMap Add.locvar).filterMap (getlocvarfunc k)

/-- The store after some calls. -/
noncomputable def after (S : Store) (calls : List Call) : Store :=
  (storedAll S (calls.map Call.asAdd)).2

variable {S : Store} {k : Nat}

theorem storedLocals_func {name : CString} {proto : ProtoDesc} {codes : List UInt8}
    {calls : List Call} : storedLocals S k (.Func name proto codes :: calls) =
      storedLocals (after S [.Func name proto codes]) k calls := rfl

theorem storedLocals_method {klazz name : CString} {proto : ProtoDesc} {codes : List UInt8}
    {calls : List Call} : storedLocals S k (.Method klazz name proto codes :: calls) =
      storedLocals (after S [.Method klazz name proto codes]) k calls := rfl

theorem storedLocals_locvar {owner : Owner} {name : CString} {desc : TypeDesc}
    {pos : BitVec 32} {calls : List Call} :
    storedLocals S k (.LocVar owner name desc pos :: calls) =
      (if owner.number = k then [⟨name, (S.put desc).1, pos⟩] else []) ++
        storedLocals (after S [.LocVar owner name desc pos]) k calls := by
  have hhead : getlocvarfunc k ⟨name, (S.put desc).1, pos, owner.number⟩ =
      if owner.number = k then some ⟨name, (S.put desc).1, pos⟩ else none := by
    simp only [getlocvarfunc, Int.ofNat_inj]
  have hcons : storedLocals S k (.LocVar owner name desc pos :: calls) =
      (⟨name, (S.put desc).1, pos, owner.number⟩ :: _ : List LocVarInfo).filterMap
        (getlocvarfunc k) := rfl
  rw [hcons, List.filterMap_cons, hhead]
  by_cases howner : owner.number = k
  · rw [if_pos howner, if_pos howner]
    rfl
  · rw [if_neg howner, if_neg howner]
    rfl

/-- At least the recorded locals are given. -/
theorem length_locals_le (calls : List Call) :
    (locals (.func k) calls).length ≤ (storedLocals S k calls).length := by
  induction calls generalizing S with
  | nil => exact Nat.le_refl _
  | cons c calls ih =>
    cases c with
    | Func => exact ih
    | Method => exact ih
    | LocVar owner name desc pos =>
      rw [storedLocals_locvar, locals, List.filterMap_cons, Call.locvar, List.length_append]
      by_cases howner : owner = .func k
      · rw [if_pos howner, howner, Owner.number, if_pos rfl, List.length_cons,
          List.length_singleton, Nat.add_comm]
        exact Nat.add_le_add_left ih 1
      · rw [if_neg howner]
        exact ih.trans (Nat.le_add_left _ _)

/-- What a call may not do if the function `k` is to get its own locals. -/
def Fits (S : Store) (k : Nat) : Call → Prop
  | .LocVar (.func i) _ desc _ => i = k → (S.put desc).1 = desc
  | .LocVar (.method i) _ _ _ => i ≠ k
  | _ => True

theorem forall_split_cons {α : Type} {P : List α → α → Prop} {x : α} {l : List α} :
    (∀ pre y post, x :: l = pre ++ y :: post → P pre y) ↔
      P [] x ∧ ∀ pre y post, l = pre ++ y :: post → P (x :: pre) y := by
  constructor
  · intro h
    refine ⟨h [] x l rfl, fun pre y post heq => h (x :: pre) y post ?_⟩
    rw [heq, List.cons_append]
  · rintro ⟨hhead, htail⟩ pre y post heq
    cases pre with
    | nil =>
      cases heq
      exact hhead
    | cons z pre =>
      rw [List.cons_append, List.cons.injEq] at heq
      obtain ⟨rfl, heq⟩ := heq
      exact htail pre y post heq

/-- The function `k` gets its own locals exactly when every call fits. -/
theorem storedLocals_eq_iff {calls : List Call} :
    storedLocals S k calls = locals (.func k) calls ↔
      ∀ pre c post, calls = pre ++ c :: post → Fits (after S pre) k c := by
  induction calls generalizing S with
  | nil => simp [storedLocals, locals, storedAll]
  | cons c calls ih =>
    rw [forall_split_cons (P := fun pre c => Fits (after S pre) k c)]
    change _ ↔ _ ∧ ∀ pre y post, calls = pre ++ y :: post → Fits (after (after S [c]) pre) k y
    rw [← ih]
    cases c with
    | Func =>
      rw [storedLocals_func]
      exact (and_iff_right trivial).symm
    | Method =>
      rw [storedLocals_method]
      exact (and_iff_right trivial).symm
    | LocVar owner name desc pos =>
      rw [storedLocals_locvar, locals, List.filterMap_cons, Call.locvar]
      cases owner with
      | func i =>
        rw [Owner.number]
        by_cases hi : i = k
        · rw [if_pos hi, if_pos (congrArg Owner.func hi), List.singleton_append,
            List.cons.injEq, LocVar.mk.injEq]
          simp [Fits, hi, after, storedAll, locals]
        · rw [if_neg hi, if_neg (by simpa using hi), List.nil_append]
          simp [Fits, hi, locals]
      | method i =>
        rw [Owner.number, if_neg (c := Owner.method i = Owner.func k) (by simp)]
        by_cases hi : i = k
        · rw [if_pos hi, List.singleton_append]
          refine iff_of_false (fun heq => ?_) (by simp [Fits, hi])
          -- the package gives one local more than were recorded
          have hlength := congrArg List.length heq
          have hle := length_locals_le calls (k := k)
            (S := after S [.LocVar (.method i) name desc pos])
          rw [List.length_cons] at hlength
          change _ = (locals (.func k) calls).length at hlength
          omega
        · rw [if_neg hi, List.nil_append]
          simp [Fits, hi, locals]

end stored

end koala.package

open koala.atomtable koala.hashtable koala.image koala.typedesc koala.typedesc.Store

namespace koala.image

/-- Storing types changes neither the functions called nor the kinds of items. -/
theorem storedAll_kinds (S : Store) (adds : List Add) :
    (storedAll S adds).1.map Add.kinds = adds.map Add.kinds := by
  induction adds generalizing S with
  | nil => rfl
  | cons a adds ih =>
    rw [storedAll, List.map_cons, List.map_cons, ih]
    congr 1
    cases a with
    | NFunc klazz => cases klazz <;> rfl
    | _ => rfl

end koala.image

namespace koala.package

set_option linter.style.nameCheck false

section load

variable {S : Store}

theorem call_kinds {calls : List Call} {a : Add}
    (ha : a ∈ (storedAll S (calls.map Call.asAdd)).1) :
    .ITEM_CONST ∉ a.kinds ∧ .ITEM_VAR ∉ a.kinds := by
  have hmem : a.kinds ∈ (storedAll S (calls.map Call.asAdd)).1.map Add.kinds :=
    List.mem_map_of_mem ha
  rw [storedAll_kinds, List.map_map] at hmem
  obtain ⟨c, _, hc⟩ := List.mem_map.mp hmem
  rw [← hc]
  cases c <;> simp [Call.asAdd, Add.kinds]

/-- The names of the functions are those of the calls. -/
theorem storedAll_func_names (calls : List Call) :
    ((storedAll S (calls.map Call.asAdd)).1.flatMap Add.func).map FuncInfo.name =
      calls.filterMap Call.func := by
  induction calls generalizing S with
  | nil => rfl
  | cons c calls ih =>
    cases c with
    | Func name proto codes => exact congrArg (name :: ·) ih
    | Method => exact ih
    | LocVar => exact ih

/-- The node of a function: its code object with the locals of its index. -/
def funcnode (locvars : List LocVarInfo) (func : FuncInfo × Nat) : MNode :=
  ⟨func.1.name, .FUNC_KIND ⟨func.1.name, func.1.desc, func.1.codes,
    locvars.filterMap (getlocvarfunc func.2)⟩⟩

theorem foldl_getfuncfn_mtbl (locvars : List LocVarInfo) (pkg : Package)
    (funcs : List (FuncInfo × Nat)) : (funcs.foldl (getfuncfn locvars) pkg).mtbl =
      (funcs.map (funcnode locvars)).foldl mtbl_insert pkg.mtbl := by
  induction funcs generalizing pkg with
  | nil => rfl
  | cons func funcs ih => exact ih _

theorem tableWF_new (name : CString) : TableWF (Pkg_New name).mtbl := Buckets.wf_init

variable {image : KImage} {adds : List Add} {new : List (List Item)} {fuel : Nat}

/-- The package of an image without constants and variables has the first
function of every name. -/
theorem Pkg_From_Image_ok (hrecords : List.Forall₂ (Records image.table) adds new)
    (hplaces : Places AtomTable_New image.table S new.flatten)
    (hfuel : ∀ a ∈ adds, a.depth ≤ fuel)
    (hkinds : ∀ a ∈ adds, .ITEM_CONST ∉ a.kinds ∧ .ITEM_VAR ∉ a.kinds) :
    ∃ pkg, Pkg_From_Image fuel image = .ok pkg ∧ TableWF pkg.mtbl ∧
      pkg.mtbl.order = (firsts (fun func => func.1.name) [] (adds.flatMap Add.func).zipIdx).map
        (funcnode (adds.flatMap Add.locvar)) := by
  have hconsts : KImage_Get_Consts image = .ok [] := by
    have hnil : adds.flatMap (fun _ => ([] : List ConstData)) = [] := by simp
    unfold KImage_Get_Consts
    rw [hplaces.items .ITEM_CONST rfl, ← hnil]
    refine mapM_of_records hrecords fun a ha items hrecord => ?_
    rw [hrecord.filterMap_eq_nil (hkinds a ha).1]
    rfl
  have hvars : KImage_Get_Vars fuel image = .ok [] := by
    rw [KImage_Get_Vars_ok hrecords hplaces hfuel]
    congr 1
    refine List.flatMap_eq_nil_iff.mpr fun a ha => ?_
    cases a with
    | Var => exact absurd List.mem_cons_self (hkinds _ ha).2
    | _ => rfl
  set funcs := adds.flatMap Add.func with hfuncs
  set locvars := adds.flatMap Add.locvar with hlocvars
  let pkg := Pkg_New (CString.ofData image.header.pkgname)
  have hfold : (funcs.zipIdx.foldl (getfuncfn locvars) pkg).mtbl =
      (funcs.zipIdx.map (funcnode locvars)).foldl mtbl_insert pkg.mtbl :=
    foldl_getfuncfn_mtbl locvars pkg _
  obtain ⟨hwf, horder⟩ := foldl_mtbl_insert (tableWF_new (CString.ofData image.header.pkgname))
    (funcs.zipIdx.map (funcnode locvars))
  refine ⟨funcs.zipIdx.foldl (getfuncfn locvars) pkg, ?_, ?_, ?_⟩
  · have hload : load_functions fuel pkg image =
        .ok (funcs.zipIdx.foldl (getfuncfn locvars) pkg) := by
      unfold load_functions
      rw [KImage_Get_Funcs_ok hrecords hplaces hfuel, ok_bind]
      split
      · next hnil =>
        rw [← hfuncs] at hnil
        rw [ok_bind, ← hfuncs, hnil]
        rfl
      · rw [KImage_Get_LocVars_ok hrecords hplaces hfuel, ok_bind]
    have hloadconsts : load_consts pkg image = .ok pkg := by
      unfold load_consts
      rw [hconsts]
      rfl
    have hloadvars : load_variables fuel pkg image = .ok pkg := by
      unfold load_variables
      rw [hvars]
      rfl
    unfold Pkg_From_Image
    dsimp only
    rw [hloadconsts, ok_bind, hloadvars, ok_bind, hload]
  · rw [hfold]
    exact hwf
  · rw [hfold, horder, firsts_map]
    rfl

end load

/-- What the calls leave behind: the records, and the table that holds them. -/
theorem Call.build_ok {pkgname : Option CString} {calls : List Call} {image : KImage}
    {returned : Returned} (h : Call.build pkgname calls = .ok (image, returned)) :
    ∃ new : List (List Item),
      List.Forall₂ (Records image.table)
        (storedAll (held AtomTable_New) (calls.map Call.asAdd)).1 new ∧
      Places AtomTable_New image.table (after (held AtomTable_New) calls) new.flatten := by
  obtain ⟨hrun, _⟩ := Call.run_ok .evenOdd 0 sound_new numbered_new h
  exact (KImage.run_ok sound_new hrun).2

/-- A function's node in the package, and what it says of the locals. -/
theorem find_function {mtbl : Buckets MNode} (hwf : TableWF mtbl) {funcs : List FuncInfo}
    {locvars : List LocVarInfo}
    (horder : mtbl.order = (firsts (fun func => func.1.name) [] funcs.zipIdx).map
      (funcnode locvars)) {func : FuncInfo × Nat}
    (hfunc : func ∈ firsts (fun func => func.1.name) [] funcs.zipIdx) :
    Find_MNode mtbl func.1.name = some (funcnode locvars func) := by
  have hnodup : (mtbl.order.map MNode.name).Nodup := by
    rw [horder, List.map_map]
    exact firsts_nodup List.nodup_nil
  have hmem : funcnode locvars func ∈ mtbl.order := by
    rw [horder]
    exact List.mem_map_of_mem hfunc
  exact Find_MNode_of_mem hwf hnodup hmem

/-- The function of a number gets its own locals exactly when its calls are
attributable. -/
theorem storedLocals_eq_iff_attributable {pkgname : Option CString} {calls : List Call}
    {image : KImage} {returned : Returned}
    (hbuild : Call.build pkgname calls = .ok (image, returned)) (k : Nat) :
    storedLocals (held AtomTable_New) k calls = locals (.func k) calls ↔
      Attributable pkgname calls k := by
  rw [storedLocals_eq_iff]
  constructor
  · intro hfits
    refine ⟨fun name desc pos hmem => ?_, fun pre name desc pos post heq image₁ returned₁ hpre => ?_⟩
    · obtain ⟨pre, post, heq⟩ := List.append_of_mem hmem
      exact hfits pre _ post heq rfl
    · have hput := hfits pre _ post heq rfl
      obtain ⟨_, _, hplaces⟩ := Call.build_ok hpre
      rw [← hplaces.held_eq] at hput
      -- the local's call runs on the image built so far
      rw [heq] at hbuild
      obtain ⟨_, _, hfirst, hrest⟩ := Call.run_append hbuild
      cases hpre.symm.trans hfirst
      obtain ⟨⟨image₂, returned₂⟩, hstep, -⟩ := bind_eq_ok_iff.mp hrest
      rw [Call.step] at hstep
      split at hstep
      · obtain ⟨_, hadd, -⟩ := bind_eq_ok_iff.mp hstep
        obtain ⟨⟨typeindex, T₁⟩, hset, -⟩ := bind_eq_ok_iff.mp hadd
        have hsupported := (hplaces.sound.TypeItem_Set_ok hset).2.supported
        rw [hput] at hsupported
        exact ⟨hsupported, ((held_closed _).clear_iff_put hsupported).mpr hput⟩
      · cases hstep
  · rintro ⟨hmethod, hclear⟩ pre c post heq
    cases c with
    | Func => trivial
    | Method => trivial
    | LocVar owner name desc pos =>
      cases owner with
      | method i =>
        rintro rfl
        exact hmethod name desc pos (heq ▸ by simp)
      | func i =>
        rintro rfl
        obtain ⟨image₁, returned₁, hpre, _⟩ := Call.run_append (heq ▸ hbuild)
        obtain ⟨hsupported, hc⟩ := hclear pre name desc pos post heq image₁ returned₁ hpre
        obtain ⟨_, _, hplaces⟩ := Call.build_ok hpre
        rw [← hplaces.held_eq]
        exact ((held_closed _).clear_iff_put hsupported).mp hc

/-- The functions of the calls are those that are loaded. -/
theorem functions_eq {S : Store} (calls : List Call) : functions calls =
    (firsts (fun func => func.1.name) [] ((storedAll S (calls.map Call.asAdd)).1.flatMap
      Add.func).zipIdx).map fun func => (func.1.name, func.2) := by
  rw [functions, ← storedAll_func_names (S := S), List.zipIdx_map, firsts_map]
  rfl

/-- Every function of the package has the locals stored for its number, and the
package has no other function. -/
theorem Pkg_From_Image_functions {pkgname : Option CString} {calls : List Call} {image : KImage}
    {returned : Returned} (hbuild : Call.build pkgname calls = .ok (image, returned)) :
    ∃ bound, ∀ fuel, bound ≤ fuel → ∃ pkg, Pkg_From_Image fuel image = .ok pkg ∧
      (∀ name k, (name, k) ∈ functions calls → ∃ code,
        Find_MNode pkg.mtbl name = some ⟨name, .FUNC_KIND code⟩ ∧
        code.locvec = storedLocals (held AtomTable_New) k calls) ∧
      ∀ name, (∀ k, (name, k) ∉ functions calls) → Find_MNode pkg.mtbl name = none := by
  obtain ⟨new, hrecords, hplaces⟩ := Call.build_ok hbuild
  obtain ⟨bound, hbound⟩ := exists_depth_bound
    (storedAll (held AtomTable_New) (calls.map Call.asAdd)).1
  refine ⟨bound, fun fuel hfuel => ?_⟩
  obtain ⟨pkg, hpkg, hwf, horder⟩ := Pkg_From_Image_ok hrecords hplaces
    (fun a ha => (hbound a ha).trans hfuel) (fun a ha => call_kinds ha)
  refine ⟨pkg, hpkg, fun name k hmem => ?_, fun name hnone => ?_⟩
  · rw [functions_eq (S := held AtomTable_New)] at hmem
    obtain ⟨func, hfunc, heq⟩ := List.mem_map.mp hmem
    cases heq
    exact ⟨_, find_function hwf horder hfunc, rfl⟩
  · rw [Find_MNode_eq_none_iff hwf, horder]
    intro m hm heq
    obtain ⟨func, hfunc, rfl⟩ := List.mem_map.mp hm
    refine hnone func.2 ?_
    rw [functions_eq (S := held AtomTable_New), ← heq]
    exact List.mem_map_of_mem (f := fun func : FuncInfo × Nat => (func.1.name, func.2)) hfunc

theorem KeepsLocals.attributable {pkgname : Option CString} {calls : List Call} {image : KImage}
    {returned : Returned} (hbuild : Call.build pkgname calls = .ok (image, returned))
    (h : KeepsLocals image calls) {name : CString} {k : Nat} (hmem : (name, k) ∈ functions calls) :
    Attributable pkgname calls k := by
  obtain ⟨bound, hload⟩ := Pkg_From_Image_functions hbuild
  obtain ⟨bound', hkeeps⟩ := h
  obtain ⟨pkg, hpkg, hown, -⟩ := hkeeps (max bound bound') (Nat.le_max_right _ _)
  obtain ⟨_, hpkg', hstored, -⟩ := hload (max bound bound') (Nat.le_max_left _ _)
  cases hpkg.symm.trans hpkg'
  obtain ⟨code, hfind, hlocals⟩ := hown name k hmem
  obtain ⟨_, hfind', hcode⟩ := hstored name k hmem
  cases hfind.symm.trans hfind'
  exact (storedLocals_eq_iff_attributable hbuild k).mp (hcode.symm.trans hlocals)

/-- In every image that calls of `KImage_Add_Func`, `KImage_Add_Method` and
`KImage_Add_LocVar` can build, the functions get exactly the locals recorded for
them when no method with a local has the number of a function of the package and
no local's type is confused with another, and only then. -/
theorem Pkg_From_Image_locals_iff {pkgname : Option CString} {calls : List Call}
    {image : KImage} {returned : Returned}
    (hbuild : Call.build pkgname calls = .ok (image, returned)) :
    KeepsLocals image calls ↔
      ∀ name k, (name, k) ∈ functions calls → Attributable pkgname calls k := by
  refine ⟨fun hkeeps name k hmem => hkeeps.attributable hbuild hmem, fun hattr => ?_⟩
  obtain ⟨bound, hload⟩ := Pkg_From_Image_functions hbuild
  refine ⟨bound, fun fuel hfuel => ?_⟩
  obtain ⟨pkg, hpkg, hstored, hnone⟩ := hload fuel hfuel
  refine ⟨pkg, hpkg, fun name k hmem => ?_, hnone⟩
  obtain ⟨code, hfind, hcode⟩ := hstored name k hmem
  exact ⟨code, hfind,
    hcode.trans ((storedLocals_eq_iff_attributable hbuild k).mpr (hattr name k hmem))⟩

section instances

theorem f_nonul : (0 : UInt8) ∉ ['f'.toUInt8] := by decide

def nameF : CString := ⟨['f'.toUInt8], f_nonul⟩

theorem x_nonul : (0 : UInt8) ∉ ['x'.toUInt8] := by decide

def nameX : CString := ⟨['x'.toUInt8], x_nonul⟩

/-- `func f() { var x int }` -/
def ownLocal : List Call :=
  [.Func nameF ⟨[], []⟩ [0], .LocVar (.func 0) nameX (.base .BASE_INT) 0]

/-- `func f() {}` and a method `f` of a class `x` with `var x int`. -/
def methodLocal : List Call :=
  [.Func nameF ⟨[], []⟩ [0], .Method nameX nameF ⟨[], []⟩ [0],
    .LocVar (.method 0) nameX (.base .BASE_INT) 0]

def built (calls : List Call) : KImage × Returned :=
  match Call.build none calls with
  | .ok r => r
  | .error _ => (KImage_New none, ⟨[], []⟩)

theorem build_eq_built (calls : List Call) (h : (Call.build none calls).isOk = true) :
    Call.build none calls = .ok ((built calls).1, (built calls).2) := by
  unfold built
  cases hbuild : Call.build none calls with
  | ok r => rfl
  | error fault =>
    rw [hbuild] at h
    cases h

theorem ownLocal_attributable (k : Nat) : Attributable none ownLocal k := by
  refine ⟨fun name desc pos => by simp [ownLocal], ?_⟩
  intro pre name desc pos post heq image returned _
  have hmem : Call.LocVar (.func k) name desc pos ∈ ownLocal := heq ▸ by simp
  have hdesc : desc = .base .BASE_INT := by
    simp only [ownLocal, List.mem_cons, List.not_mem_nil, or_false, reduceCtorEq, false_or,
      Call.LocVar.injEq] at hmem
    exact hmem.2.2.1
  rw [hdesc]
  exact ⟨trivial, trivial⟩

theorem Pkg_From_Image_locals_iff_own :
    Call.build none ownLocal = .ok ((built ownLocal).1, (built ownLocal).2) ∧
      KeepsLocals (built ownLocal).1 ownLocal := by
  have hbuild := build_eq_built ownLocal (by decide +kernel)
  exact ⟨hbuild, (Pkg_From_Image_locals_iff hbuild).mpr fun _ k _ => ownLocal_attributable k⟩

/-- The first method's local has index 0, and so has the first function. -/
theorem Pkg_From_Image_mixes_locals :
    ¬ ∀ (pkgname : Option CString) (calls : List Call) (image : KImage) (returned : Returned),
      Call.build pkgname calls = .ok (image, returned) → KeepsLocals image calls := by
  intro h
  have hbuild := build_eq_built methodLocal (by decide +kernel)
  have hmem : (nameF, 0) ∈ functions methodLocal := by decide
  have hkeeps := h none methodLocal _ _ hbuild
  exact (hkeeps.attributable hbuild hmem).1 nameX (.base .BASE_INT) 0 (by simp [methodLocal])

end instances

end koala.package
