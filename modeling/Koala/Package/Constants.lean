import Koala.Package.Model
import Koala.Image.Linked
import Koala.Image.Pool
import Mathlib.Data.List.Forall2

open koala.atomtable koala.hashtable koala.image koala.typedesc koala.typedesc.Store

namespace koala

theorem mapM_eq_ok_iff {α β : Type} {f : α → Res β} {l : List α} {r : List β} :
    l.mapM f = .ok r ↔ List.Forall₂ (fun x y => f x = .ok y) l r := by
  induction l generalizing r with
  | nil =>
    rw [List.mapM_nil, List.forall₂_nil_left_iff]
    exact ⟨fun h => (Except.ok.inj h).symm, fun h => h ▸ rfl⟩
  | cons x l ih =>
    rw [List.mapM_cons, bind_eq_ok_iff, List.forall₂_cons_left_iff]
    constructor
    · rintro ⟨y, hy, h⟩
      obtain ⟨ys, hys, heq⟩ := bind_eq_ok_iff.mp h
      cases heq
      exact ⟨y, ys, hy, ih.mp hys, rfl⟩
    · rintro ⟨y, ys, hy, hys, rfl⟩
      exact ⟨y, hy, bind_eq_ok_iff.mpr ⟨ys, ih.mpr hys, rfl⟩⟩

theorem exists_forall₂ {α β : Type} {R : α → β → Prop} {l : List α} (h : ∀ x ∈ l, ∃ y, R x y) :
    ∃ r, List.Forall₂ R l r := by
  induction l with
  | nil => exact ⟨[], .nil⟩
  | cons x l ih =>
    obtain ⟨y, hy⟩ := h x List.mem_cons_self
    obtain ⟨r, hr⟩ := ih fun z hz => h z (List.mem_cons_of_mem x hz)
    exact ⟨y :: r, .cons hy hr⟩

theorem forall₂_mem {α β : Type} {R : α → β → Prop} {l : List α} {r : List β}
    (h : List.Forall₂ R l r) {x : α} (hx : x ∈ l) : ∃ y ∈ r, R x y := by
  induction h with
  | nil => cases hx
  | @cons a b l r hab _ ih =>
    obtain rfl | hx := List.mem_cons.mp hx
    · exact ⟨b, List.mem_cons_self, hab⟩
    · obtain ⟨y, hy, hxy⟩ := ih hx
      exact ⟨y, List.mem_cons_of_mem b hy, hxy⟩

end koala

namespace koala.image

set_option linter.style.nameCheck false

/-- The constants that `__getconstfunc` makes an object of. -/
def ConstVal.readable : ConstVal → Bool
  | .CONST_INT _ | .CONST_STRING _ => true
  | _ => false

/-- The calls whose constant or variable is loaded. -/
def loadable : Add → Bool
  | .Float _ | .Bool _ | .UChar _ => false
  | .Var _ _ konst => konst = 0
  | _ => true

theorem constitem_equal_readable {c d : ConstItem} (h : constitem_equal c d = true) :
    c.val.readable = d.val.readable := by
  obtain ⟨addr, val⟩ := c
  obtain ⟨addr', val'⟩ := d
  cases val <;> cases val' <;> first | rfl | cases h

theorem AddsValue.readable {T : Table} {a : Add} {v : ConstVal} (h : AddsValue T a v) :
    v.readable = loadable a := by
  cases a with
  | String val =>
    obtain ⟨_, _, rfl⟩ := h
    rfl
  | Integer | Float | Bool | UChar =>
    cases h
    rfl
  | _ => exact h.elim

section run

variable {mem : Memory} {n : Nat} {image image' : KImage} {a : Add} {adds : List Add}
  {name : Option CString}

/-- The constant of a call is in the table, or one that equals it. -/
theorem add_readable (hT : Sound image.table) (ha : stores_const a = true) {r : Option Int}
    (h : image.add mem n a = .ok (r, image')) :
    ∃ c ∈ image'.table.items .ITEM_CONST, c.val.readable = loadable a := by
  obtain ⟨T, v, hsound, -, hval, -, hadd⟩ := add_constant hT ha
  rw [hadd, withindex_eq_ok_iff] at h
  obtain ⟨index, h, -⟩ := h
  obtain ⟨⟨index', T₁⟩, hset, heq⟩ := bind_eq_ok_iff.mp h
  cases heq
  rw [← hval.readable]
  unfold constitem_set at hset
  dsimp only at hset
  split at hset
  · refine ⟨⟨mem.item n, v⟩, ?_, rfl⟩
    dsimp only
    rw [(AtomTable_Append_ok hset).2.1, appended_self]
    exact List.mem_append_right _ (List.mem_singleton.mpr rfl)
  · next hfound =>
    cases hset
    obtain hneg | ⟨i, d, hindex, hd, hequal⟩ := ConstItem_Get_cases hsound.wf ⟨mem.key n, v⟩
    · exact absurd (by omega) hfound
    · exact ⟨d, List.mem_of_getElem? hd, constitem_equal_readable hequal⟩

/-- The constants that calls store are in the image. -/
theorem run_readable (hrun : KImage.run mem 0 (KImage_New name) adds = .ok image) (ha : a ∈ adds)
    (hconst : stores_const a = true) :
    ∃ c ∈ image.table.items .ITEM_CONST, c.val.readable = loadable a := by
  obtain ⟨pre, post, rfl⟩ := List.append_of_mem ha
  obtain ⟨image₁, hpre⟩ := KImage.run_prefix hrun
  rw [KImage.run_append hpre] at hrun
  obtain ⟨⟨r, image₂⟩, hadd, hpost⟩ := bind_eq_ok_iff.mp hrun
  have hsound := KImage.run_sound hpre
  obtain ⟨c, hc, hval⟩ := add_readable hsound hconst hadd
  obtain ⟨new, -, -, -, hplaces⟩ := KImage.add_ok hsound hadd
  obtain ⟨-, news, -, hplaces'⟩ := KImage.run_ok hplaces.sound hpost
  refine ⟨c, ?_, hval⟩
  rw [hplaces'.items .ITEM_CONST rfl]
  exact List.mem_append_left _ hc

theorem Records.addsValue {T : Table} {items : List Item} {c : ConstItem} (h : Records T a items)
    (hc : (⟨.ITEM_CONST, c⟩ : Item) ∈ items) : AddsValue T a c.val := by
  cases a with
  | Integer | Float | Bool | UChar =>
    obtain rfl | ⟨addr, rfl⟩ := h
    · cases hc
    · cases List.mem_singleton.mp hc
      rfl
  | String val =>
    obtain ⟨index, hindex, rfl | ⟨addr, rfl⟩⟩ := h
    · cases hc
    · cases List.mem_singleton.mp hc
      exact ⟨index, hindex, rfl⟩
  | _ =>
    have hkind := h.kind_mem _ hc
    simp [Add.kinds] at hkind

theorem stored_loadable (S : Store) (adds : List Add) :
    (storedAll S adds).1.map loadable = adds.map loadable := by
  induction adds generalizing S with
  | nil => rfl
  | cons a adds ih =>
    rw [storedAll, List.map_cons, List.map_cons, ih]
    congr 1
    cases a with
    | NFunc klazz => cases klazz <;> rfl
    | _ => rfl

/-- A constant is stored as it is given. -/
theorem mem_of_stored {S : Store} (h : a ∈ (storedAll S adds).1) (hconst : stores_const a = true) :
    a ∈ adds := by
  induction adds generalizing S with
  | nil => cases h
  | cons b adds ih =>
    obtain heq | hrest := List.mem_cons.mp h
    · have hsame : a = b := by
        cases b with
        | Integer | Float | Bool | String | UChar => exact heq
        | NFunc klazz =>
          rw [heq] at hconst
          cases klazz <;> cases hconst
        | _ =>
          rw [heq] at hconst
          cases hconst
      rw [hsame]
      exact List.mem_cons_self
    · exact List.mem_cons_of_mem b (ih hrest)

end run

end koala.image

namespace koala.package

set_option linter.style.nameCheck false

/-- What an object of the tuple holds. -/
def Denotes (T : Table) : ConstVal → Object → Prop
  | .CONST_INT val, ob => ob = .Integer val
  | .CONST_STRING index, ob => ∃ str, HoldsString T index str ∧ ob = .String str
  | _, _ => False

/-- The package is made, and its tuple has an object for every constant of the
image, at the same place. -/
def LoadsConstants (image : KImage) : Prop :=
  ∃ bound, ∀ fuel, bound ≤ fuel → ∃ pkg, Pkg_From_Image fuel image = .ok pkg ∧
    List.Forall₂ (fun c ob => Denotes image.table c.val ob) (image.table.items .ITEM_CONST)
      pkg.consts

section load

variable {image : KImage} {adds : List Add} {new : List (List Item)} {S : Store} {fuel : Nat}
  {pkg pkg' : Package}

/-- The constant that is passed to `__getconstfunc`. -/
def const_data (T : Table) (item : ConstItem) : Res ConstData :=
  match item.val with
  | .CONST_STRING index => do
    let data ← stringData T index
    .ok (.text data)
  | val => .ok (.value val)

theorem KImage_Get_Consts_eq (image : KImage) :
    KImage_Get_Consts image = (image.table.items .ITEM_CONST).mapM (const_data image.table) := rfl

theorem getconstfunc_ok {T : Table} {c : ConstItem} {data : ConstData} {ob : Object}
    (hdata : const_data T c = .ok data) (hob : getconstfunc data = .ok ob) :
    c.val.readable = true := by
  obtain ⟨addr, val⟩ := c
  cases val with
  | CONST_INT | CONST_STRING => rfl
  | CONST_FLOAT | CONST_BOOL | CONST_UCHAR =>
    cases hdata
    cases hob

theorem exists_object {T : Table} {a : Add} {c : ConstItem} (hval : AddsValue T a c.val)
    (hread : c.val.readable = true) :
    ∃ data ob, const_data T c = .ok data ∧ getconstfunc data = .ok ob ∧ Denotes T c.val ob := by
  obtain ⟨addr, val⟩ := c
  cases val with
  | CONST_INT v => exact ⟨_, _, rfl, rfl, rfl⟩
  | CONST_STRING index =>
    cases a with
    | String s =>
      obtain ⟨i, hstring, heq⟩ := hval
      cases heq
      refine ⟨.text s, .String s, ?_, rfl, s, hstring, rfl⟩
      rw [const_data]
      dsimp only
      rw [stringData_of_holds hstring]
      rfl
    | Integer | Float | Bool | UChar => cases hval
    | _ => exact hval.elim
  | CONST_FLOAT | CONST_BOOL | CONST_UCHAR => cases hread

/-- The constants are loaded when they are of the two kinds. -/
theorem load_consts_of_readable (pkg : Package) (horigin : ∀ c ∈ image.table.items .ITEM_CONST,
      ∃ a, AddsValue image.table a c.val)
    (hread : ∀ c ∈ image.table.items .ITEM_CONST, c.val.readable = true) :
    ∃ consts, load_consts pkg image = .ok { pkg with consts } ∧
      List.Forall₂ (fun c ob => Denotes image.table c.val ob) (image.table.items .ITEM_CONST)
        consts := by
  have heach : ∀ c ∈ image.table.items .ITEM_CONST, ∃ r : ConstData × Object,
      const_data image.table c = .ok r.1 ∧ getconstfunc r.1 = .ok r.2 ∧
        Denotes image.table c.val r.2 := by
    intro c hc
    obtain ⟨a, hval⟩ := horigin c hc
    obtain ⟨data, ob, hdata, hob, hdenotes⟩ := exists_object hval (hread c hc)
    exact ⟨(data, ob), hdata, hob, hdenotes⟩
  obtain ⟨r, hr⟩ := exists_forall₂ heach
  have hdata : KImage_Get_Consts image = .ok (r.map Prod.fst) := by
    rw [KImage_Get_Consts_eq, mapM_eq_ok_iff, List.forall₂_map_right_iff]
    exact hr.imp fun _ _ h => h.1
  have hobs : (r.map Prod.fst).mapM getconstfunc = .ok (r.map Prod.snd) := by
    rw [mapM_eq_ok_iff, List.forall₂_map_left_iff, List.forall₂_map_right_iff, List.forall₂_same]
    intro x hx
    obtain ⟨c, -, hc⟩ := forall₂_mem hr.flip hx
    exact hc.2.1
  refine ⟨r.map Prod.snd, ?_, ?_⟩
  · rw [load_consts, hdata, ok_bind, hobs]
    rfl
  · rw [List.forall₂_map_right_iff]
    exact hr.imp fun _ _ h => h.2.2

theorem readable_of_load_consts (h : load_consts pkg image = .ok pkg') :
    ∀ c ∈ image.table.items .ITEM_CONST, c.val.readable = true := by
  obtain ⟨data, hdata, h⟩ := bind_eq_ok_iff.mp h
  obtain ⟨consts, hconsts, -⟩ := bind_eq_ok_iff.mp h
  rw [KImage_Get_Consts_eq, mapM_eq_ok_iff] at hdata
  rw [mapM_eq_ok_iff] at hconsts
  intro c hc
  obtain ⟨x, hx, hread⟩ := forall₂_mem hdata hc
  obtain ⟨ob, -, hob⟩ := forall₂_mem hconsts hx
  exact getconstfunc_ok hread hob

/-- Variables are added when none is constant, and the constants stay. -/
theorem foldlM_getvarfunc (pkg : Package) {vars : List VarInfo} (hkonst : ∀ var ∈ vars, var.konst = 0) :
    ∃ pkg', vars.foldlM getvarfunc pkg = .ok pkg' ∧ pkg'.consts = pkg.consts := by
  induction vars generalizing pkg with
  | nil => exact ⟨pkg, rfl, rfl⟩
  | cons var vars ih =>
    have hvar : getvarfunc pkg var = .ok (Pkg_Add_Var pkg var.name var.desc) := by
      rw [getvarfunc, if_neg (not_not.mpr (hkonst var List.mem_cons_self))]
    obtain ⟨pkg', hrest, hconsts⟩ := ih (Pkg_Add_Var pkg var.name var.desc) fun v hv =>
      hkonst v (List.mem_cons_of_mem var hv)
    refine ⟨pkg', ?_, hconsts⟩
    rw [List.foldlM_cons, hvar, ok_bind]
    exact hrest

theorem konst_of_foldlM {vars : List VarInfo} (h : vars.foldlM getvarfunc pkg = .ok pkg') :
    ∀ var ∈ vars, var.konst = 0 := by
  induction vars generalizing pkg with
  | nil => simp
  | cons var vars ih =>
    rw [List.foldlM_cons] at h
    obtain ⟨pkg₁, hvar, hrest⟩ := bind_eq_ok_iff.mp h
    refine List.forall_mem_cons.mpr ⟨?_, ih hrest⟩
    by_contra hkonst
    rw [getvarfunc, if_pos hkonst] at hvar
    cases hvar

theorem foldl_getfuncfn_consts (locvars : List LocVarInfo) (funcs : List (FuncInfo × Nat)) :
    (funcs.foldl (getfuncfn locvars) pkg).consts = pkg.consts := by
  induction funcs generalizing pkg with
  | nil => rfl
  | cons func funcs ih => exact ih

/-- Loading functions always succeeds. -/
theorem load_functions_ok (pkg : Package) (hrecords : List.Forall₂ (Records image.table) adds new)
    (hplaces : Places AtomTable_New image.table S new.flatten)
    (hfuel : ∀ a ∈ adds, a.depth ≤ fuel) :
    ∃ pkg', load_functions fuel pkg image = .ok pkg' ∧ pkg'.consts = pkg.consts := by
  rw [load_functions, KImage_Get_Funcs_ok hrecords hplaces hfuel, ok_bind]
  dsimp only
  split
  · exact ⟨_, rfl, foldl_getfuncfn_consts [] _⟩
  · rw [KImage_Get_LocVars_ok hrecords hplaces hfuel]
    exact ⟨_, rfl, foldl_getfuncfn_consts _ _⟩

theorem loadable_of_konst (h : ∀ var ∈ adds.flatMap Add.var, var.konst = 0) {a : Add}
    (ha : a ∈ adds) (hconst : stores_const a = false) : loadable a = true := by
  cases a with
  | Var name desc konst =>
    have hkonst := h ⟨name, desc, konst⟩
      (List.mem_flatMap.mpr ⟨_, ha, List.mem_singleton.mpr rfl⟩)
    exact decide_eq_true hkonst
  | Integer | Float | Bool | String | UChar => cases hconst
  | _ => rfl

theorem konst_of_loadable (h : ∀ a ∈ adds, loadable a = true) :
    ∀ var ∈ adds.flatMap Add.var, var.konst = 0 := by
  intro var hvar
  obtain ⟨a, ha, hvar⟩ := List.mem_flatMap.mp hvar
  have hload := h a ha
  cases a with
  | Var name desc konst =>
    rw [List.mem_singleton.mp hvar]
    exact of_decide_eq_true hload
  | _ => cases hvar

end load

/-- For every image that calls of `KImage_Add_*` build: the constants are loaded
if and only if no call added a float, a bool, a char or a constant variable. -/
theorem loadsConstants_iff {mem : Memory} {name : Option CString} {adds : List Add}
    {image : KImage} (hrun : KImage.run mem 0 (KImage_New name) adds = .ok image) :
    LoadsConstants image ↔ ∀ a ∈ adds, loadable a = true := by
  obtain ⟨-, new, hrecords, hplaces⟩ := KImage.run_ok sound_new hrun
  set stored := (storedAll (held (KImage_New name).table) adds).1 with hstored
  obtain ⟨depth, hdepth⟩ := exists_depth_bound stored
  have hvars : ∀ fuel, depth ≤ fuel → ∀ pkg, load_variables fuel pkg image =
      (stored.flatMap Add.var).foldlM getvarfunc pkg := by
    intro fuel hfuel pkg
    rw [load_variables, KImage_Get_Vars_ok hrecords hplaces fun a ha => (hdepth a ha).trans hfuel,
      ok_bind]
  have hloadable : (∀ a ∈ stored, loadable a = true) ↔ ∀ a ∈ adds, loadable a = true := by
    have hmap := stored_loadable (held (KImage_New name).table) adds
    have hleft : (∀ b ∈ stored.map loadable, b = true) ↔ ∀ a ∈ stored, loadable a = true :=
      List.forall_mem_map
    rw [← hleft, hstored, hmap, List.forall_mem_map]
  constructor
  · rintro ⟨bound, hload⟩
    obtain ⟨pkg, hpkg, -⟩ := hload (max bound depth) (Nat.le_max_left _ _)
    obtain ⟨pkg₁, hconsts, hpkg⟩ := bind_eq_ok_iff.mp hpkg
    obtain ⟨pkg₂, hvariables, -⟩ := bind_eq_ok_iff.mp hpkg
    rw [hvars _ (Nat.le_max_right _ _)] at hvariables
    refine hloadable.mp fun a ha => ?_
    cases hconst : stores_const a with
    | true =>
      obtain ⟨c, hc, hval⟩ := run_readable hrun (mem_of_stored ha hconst) hconst
      rw [← hval]
      exact readable_of_load_consts hconsts c hc
    | false => exact loadable_of_konst (konst_of_foldlM hvariables) ha hconst
  · intro hall
    have horigin : ∀ c ∈ image.table.items .ITEM_CONST,
        ∃ a ∈ stored, AddsValue image.table a c.val := by
      intro c hc
      obtain ⟨i, hi⟩ := List.mem_iff_getElem?.mp hc
      have hget : ∃ i, Get image.table .ITEM_CONST i = some c :=
        ⟨i, by rw [Get, AtomTable_Get_of_nonneg, hi]⟩
      obtain ⟨a, ha, items, hrecord, hitem⟩ :=
        exists_record hrecords ((hplaces.get_iff rfl).mp hget)
      exact ⟨a, ha, hrecord.addsValue hitem⟩
    have hread : ∀ c ∈ image.table.items .ITEM_CONST, c.val.readable = true := by
      intro c hc
      obtain ⟨a, ha, hval⟩ := horigin c hc
      rw [hval.readable]
      exact hloadable.mpr hall a ha
    refine ⟨depth, fun fuel hfuel => ?_⟩
    let pkg := Pkg_New (CString.ofData image.header.pkgname)
    obtain ⟨consts, hconsts, hdenotes⟩ := load_consts_of_readable pkg
      (fun c hc => (horigin c hc).imp fun _ => And.right) hread
    obtain ⟨pkg₁, hvariables, hsame⟩ := foldlM_getvarfunc { pkg with consts }
      (konst_of_loadable (hloadable.mpr hall))
    rw [← hvars fuel hfuel] at hvariables
    obtain ⟨pkg₂, hfunctions, hsame'⟩ := load_functions_ok pkg₁ hrecords hplaces
      fun a ha => (hdepth a ha).trans hfuel
    refine ⟨pkg₂, ?_, ?_⟩
    · rw [Pkg_From_Image, hconsts, ok_bind, hvariables, ok_bind, hfunctions]
    · rw [hsame', hsame]
      exact hdenotes

/-- An int and a string. -/
def pooled : KImage :=
  match KImage.run .evenOdd 0 (KImage_New none) [.Integer 1, .String image.nameF] with
  | .ok image => image
  | .error _ => KImage_New none

theorem loadsConstants_iff_kinds : LoadsConstants pooled := by
  have hrun : KImage.run .evenOdd 0 (KImage_New none) [.Integer 1, .String image.nameF] = .ok pooled :=
    rfl
  refine (loadsConstants_iff hrun).mpr fun a ha => ?_
  obtain rfl | rfl : a = .Integer 1 ∨ a = .String image.nameF := by simpa using ha
  · rfl
  · rfl

/-- The constant `true` is not loaded. -/
theorem not_loadsConstants : ¬ ∀ (mem : Memory) (name : Option CString) (adds : List Add)
    (image : KImage), KImage.run mem 0 (KImage_New name) adds = .ok image →
    LoadsConstants image := by
  intro h
  obtain ⟨bound, hload⟩ := h .evenOdd none [.Bool 1] _ rfl
  obtain ⟨pkg, hpkg, -⟩ := hload bound le_rfl
  cases hpkg

end koala.package
